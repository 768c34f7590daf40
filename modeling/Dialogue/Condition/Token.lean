import Dialogue.Text
/-!
The words of the condition language. A text is cut into lexemes, blanks among them, that
concatenate to it; its tokens are the lexemes that mean something.
-/
namespace Dialogue

inductive Comparison where
  | ge | le | gt | lt | ne | eq
  | contains
  | notContains
deriving DecidableEq

def Comparison.spelling : Comparison → String
  | ge => ">="
  | le => "<="
  | gt => ">>"
  | lt => "<<"
  | ne => "!="
  | eq => "=="
  | contains => "CONTAINS"
  | notContains => "NOT CONTAINS"

namespace Condition

inductive Kind where
  | opening
  | closing
  | symbol (op : Comparison)
  | variable (name : String)
  | quoted (text : String)
  | word (text : String)
deriving DecidableEq

inductive Fault where
  | unterminatedVariable
  | emptyVariable
  | unterminatedLiteral
  | unexpectedCharacter (found : Char)
  | unexpected (found : Kind)
  | expectedClosing (found : Option Kind)
  | expectedOperand (found : Option Kind)
  | existsWithoutVariable
deriving DecidableEq

structure ParseError where
  fault : Fault
  offset : Nat
deriving DecidableEq

structure Token where
  kind : Kind
  offset : Nat
deriving DecidableEq

/-- A piece of the text and its meaning; a blank has none. -/
structure Lexeme where
  source : List Char
  kind : Option Kind

/-- The comparison whose spelling begins here, the longest one, and the length of the spelling. -/
def symbol? : List Char → Option (Comparison × Nat)
  | '>' :: '=' :: _ => some (.ge, 2)
  | '<' :: '=' :: _ => some (.le, 2)
  | '>' :: '>' :: _ => some (.gt, 2)
  | '<' :: '<' :: _ => some (.lt, 2)
  | '!' :: '=' :: _ => some (.ne, 2)
  | '=' :: '=' :: _ => some (.eq, 2)
  | '>' :: _ => some (.gt, 1)
  | '<' :: _ => some (.lt, 1)
  | _ => none

def braces : List Char := ['\x7b', '\x7b']

def closingBraces : List Char := ['\x7d', '\x7d']

def endsWord : List Char → Bool
  | [] => true
  | c :: rest =>
    Text.isBlank c || c == '(' || c == ')' || c == '"' || c == '\'' ||
      braces.isPrefixOf (c :: rest) || (symbol? (c :: rest)).isSome

def bareWord : List Char → List Char × List Char
  | [] => ([], [])
  | c :: rest =>
    if endsWord (c :: rest) then ([], c :: rest)
    else
      let (word, after) := bareWord rest
      (c :: word, after)

def Lexeme.first (c : Char) (rest : List Char) : Except Fault (Lexeme × List Char) :=
  if Text.isBlank c then .ok (⟨[c], none⟩, rest)
  else if c = '(' then .ok (⟨[c], some .opening⟩, rest)
  else if c = ')' then .ok (⟨[c], some .closing⟩, rest)
  else if braces.isPrefixOf (c :: rest) then
    match Text.breakOn? closingBraces (rest.drop 1) with
    | none => .error .unterminatedVariable
    | some (name, after) =>
      if Text.trim name = [] then .error .emptyVariable
      else
        let kind := Kind.variable (String.ofList (Text.trim name))
        .ok (⟨braces ++ name ++ closingBraces, some kind⟩, after)
  else if c = '"' ∨ c = '\'' then
    match Text.breakOn? [c] rest with
    | none => .error .unterminatedLiteral
    | some (text, after) => .ok (⟨c :: text ++ [c], some (.quoted (String.ofList text))⟩, after)
  else
    match symbol? (c :: rest) with
    | some (op, length) =>
      .ok (⟨(c :: rest).take length, some (.symbol op)⟩, (c :: rest).drop length)
    | none =>
      match bareWord (c :: rest) with
      | ([], _) => .error (.unexpectedCharacter c)
      | (word, after) => .ok (⟨word, some (.word (String.ofList word))⟩, after)

theorem bareWord_append (cs : List Char) : (bareWord cs).1 ++ (bareWord cs).2 = cs := by
  induction cs with
  | nil => rfl
  | cons c rest ih =>
    simp only [bareWord]
    split
    · rfl
    · simpa using ih

theorem symbol?_length {cs : List Char} {op : Comparison} {length : Nat}
    (h : symbol? cs = some (op, length)) : 0 < length := by
  unfold symbol? at h
  split at h <;> simp_all <;> omega

/-- The first lexeme and the rest make up the text. -/
theorem Lexeme.first_append {c : Char} {rest after : List Char} {lexeme : Lexeme}
    (h : Lexeme.first c rest = .ok (lexeme, after)) : lexeme.source ++ after = c :: rest := by
  unfold Lexeme.first at h
  repeat' split at h
  · cases h; rfl
  · cases h; rfl
  · cases h; rfl
  · cases h
  · cases h
  · next hb _ name _ hm _ =>
    cases h
    obtain ⟨tail, ht⟩ := List.isPrefixOf_iff_prefix.mp hb
    cases ht
    simpa [braces] using (Text.breakOn?_eq_some hm).symm
  · cases h
  · next hm =>
    cases h
    simpa using (Text.breakOn?_eq_some hm).symm
  · cases h
    simp
  · cases h
  · next word _ _ hw =>
    cases h
    have := bareWord_append (c :: rest)
    rwa [hw] at this

/-- A lexeme is never empty. -/
theorem Lexeme.first_length {c : Char} {rest after : List Char} {lexeme : Lexeme}
    (h : Lexeme.first c rest = .ok (lexeme, after)) : after.length < (c :: rest).length := by
  have hs : lexeme.source ≠ [] := by
    unfold Lexeme.first at h
    repeat' split at h
    all_goals first
      | (cases h; done)
      | (cases h; simp [braces]; done)
      | skip
    · next length hs =>
      cases h
      have := symbol?_length hs
      simp; omega
    · next nonempty _ =>
      cases h
      exact nonempty
  rw [← Lexeme.first_append h, List.length_append]
  have := List.length_pos_iff.mpr hs
  omega

def lexemes (offset : Nat) : List Char → Except ParseError (List (Nat × Lexeme))
  | [] => .ok []
  | c :: rest =>
    match h : Lexeme.first c rest with
    | .error fault => .error ⟨fault, offset⟩
    | .ok (lexeme, after) =>
      have := Lexeme.first_length h
      match lexemes (offset + Text.byteLength lexeme.source) after with
      | .error e => .error e
      | .ok ls => .ok ((offset, lexeme) :: ls)
termination_by cs => cs.length
decreasing_by assumption

def tokens (text : String) : Except ParseError (List Token) :=
  (lexemes 0 text.toList).map fun ls =>
    ls.filterMap fun (offset, lexeme) => lexeme.kind.map fun kind => ⟨kind, offset⟩

end Condition
end Dialogue
