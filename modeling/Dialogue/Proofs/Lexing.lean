import Dialogue.Proofs.Parsing
/-!
What a text is cut into, piece by piece from its end. Main statement: a variable, a quoted text, a
comparison or a bare word in front of a text is its first token, whatever the text is.
-/
namespace Dialogue

namespace Text

/-- A mark that is found is found in front of any text. -/
theorem breakOn?_append {mark cs before after : List Char}
    (h : breakOn? mark cs = some (before, after)) (rest : List Char) :
    breakOn? mark (cs ++ rest) = some (before, after ++ rest) := by
  induction cs generalizing before with
  | nil =>
    rw [breakOn?] at h
    split at h
    · next empty =>
      cases h
      obtain rfl := List.isEmpty_iff.mp empty
      cases rest <;> rfl
    · cases h
  | cons c cs ih =>
    rw [breakOn?] at h
    rw [List.cons_append, breakOn?]
    split at h
    · next first =>
      cases h
      have starts := List.isPrefixOf_iff_prefix.mp first
      have still : mark.isPrefixOf (c :: (cs ++ rest)) = true :=
        List.isPrefixOf_iff_prefix.mpr (starts.trans (List.prefix_append _ rest))
      rw [if_pos still, ← List.cons_append, List.drop_append_of_le_length starts.length_le]
    · next later =>
      obtain ⟨⟨front, back⟩, found, ⟨⟩⟩ := Option.map_eq_some_iff.mp h
      have still : mark.isPrefixOf (c :: (cs ++ rest)) ≠ true := by
        intro starts
        have short : mark.length ≤ (c :: cs).length := by
          rw [breakOn?_eq_some found]
          simp only [List.length_cons, List.length_append]
          omega
        have inside := List.prefix_of_prefix_length_le (List.isPrefixOf_iff_prefix.mp starts)
          (List.prefix_append (c :: cs) rest) short
        exact later (List.isPrefixOf_iff_prefix.mpr inside)
      rw [if_neg still, ih found]
      rfl

theorem breakOn?_quote {q : Char} {text : List Char} (inside : q ∉ text) (rest : List Char) :
    breakOn? [q] (text ++ q :: rest) = some (text, rest) := by
  induction text with
  | nil => simp [breakOn?]
  | cons c text ih =>
    rw [List.mem_cons, not_or] at inside
    rw [List.cons_append, breakOn?, ih inside.2]
    simp [inside.1]

end Text

def Comparison.spellings : Comparison → List String
  | gt => [gt.spelling, ">"]
  | lt => [lt.spelling, "<"]
  | op => [op.spelling]

namespace Condition

def Lexes (cs : List Char) (ks : List Kind) : Prop :=
  ∀ offset, ∃ ls, lexemes offset cs = .ok ls ∧ ls.filterMap (fun l => l.2.kind) = ks

theorem lexemes_first {c : Char} {rest after : List Char} {lexeme : Lexeme} {offset : Nat}
    {ls : List (Nat × Lexeme)} (h : Lexeme.first c rest = .ok (lexeme, after))
    (later : lexemes (offset + Text.byteLength lexeme.source) after = .ok ls) :
    lexemes offset (c :: rest) = .ok ((offset, lexeme) :: ls) := by
  rw [lexemes]
  split
  · next h' =>
    rw [h] at h'
    cases h'
  · next h' =>
    rw [h] at h'
    cases h'
    rw [later]

theorem lexes_nil : Lexes [] [] := fun offset => ⟨[], by rw [lexemes], rfl⟩

theorem Lexes.first {c : Char} {rest after : List Char} {lexeme : Lexeme} {ks : List Kind}
    (h : Lexeme.first c rest = .ok (lexeme, after)) (later : Lexes after ks) :
    Lexes (c :: rest) (lexeme.kind.toList ++ ks) := by
  intro offset
  obtain ⟨ls, hls, hks⟩ := later (offset + Text.byteLength lexeme.source)
  refine ⟨(offset, lexeme) :: ls, lexemes_first h hls, ?_⟩
  cases hk : lexeme.kind <;> simp [hk, hks]

theorem Lexes.tokens {text : String} {ks : List Kind} (h : Lexes text.toList ks) :
    ∃ ts, tokens text = .ok ts ∧ kinds ts = ks := by
  obtain ⟨ls, hls, hks⟩ := h 0
  refine ⟨_, by rw [Condition.tokens, hls]; rfl, ?_⟩
  simp [← hks, kinds, List.map_filterMap, Function.comp_def]

theorem Lexes.ofText {text : String} {ks : List Kind} {c : Condition}
    (h : Lexes text.toList ks) (sentence : Sentence ks c) : ofText text = .ok c := by
  obtain ⟨ts, hts, rfl⟩ := h.tokens
  rw [Condition.ofText, hts]
  exact (ofTokens_iff ts c).mpr sentence

theorem Lexes.blank {c : Char} {rest : List Char} {ks : List Kind} (blank : Text.isBlank c = true)
    (later : Lexes rest ks) : Lexes (c :: rest) ks := by
  have first : Lexeme.first c rest = .ok (⟨[c], none⟩, rest) := by rw [Lexeme.first, if_pos blank]
  exact later.first first

theorem first_quoted {q : Char} (quote : q = '\'' ∨ q = '"') (body : List Char) :
    Lexeme.first q body =
      match Text.breakOn? [q] body with
      | none => .error .unterminatedLiteral
      | some (text, after) =>
        .ok (⟨q :: text ++ [q], some (.quoted (String.ofList text))⟩, after) := by
  rcases quote with rfl | rfl <;> rfl

theorem first_variable (body : List Char) :
    Lexeme.first '\x7b' ('\x7b' :: body) =
      match Text.breakOn? closingBraces body with
      | none => .error .unterminatedVariable
      | some (name, after) =>
        if Text.trim name = [] then .error .emptyVariable
        else
          .ok (⟨braces ++ name ++ closingBraces,
            some (.variable (String.ofList (Text.trim name)))⟩, after) := rfl

theorem Lexes.quoted {q : Char} (quote : q = '\'' ∨ q = '"') {text rest : List Char}
    {ks : List Kind} (inside : q ∉ text) (later : Lexes rest ks) :
    Lexes (q :: text ++ q :: rest) (.quoted (String.ofList text) :: ks) := by
  have found : Text.breakOn? [q] (text ++ q :: rest) = some (text, rest) :=
    Text.breakOn?_quote inside rest
  have first := first_quoted quote (text ++ q :: rest)
  rw [found] at first
  exact later.first first

/-- Between double braces the text names the variable: they hold nothing but its token. -/
def Names (text name : String) : Prop :=
  tokens ("\x7b\x7b" ++ text ++ "\x7d\x7d") = .ok [⟨.variable name, 0⟩]

theorem lexemes_ok {c : Char} {rest : List Char} {offset : Nat} {ls : List (Nat × Lexeme)}
    (h : lexemes offset (c :: rest) = .ok ls) :
    ∃ lexeme after later, Lexeme.first c rest = .ok (lexeme, after) ∧
      lexemes (offset + Text.byteLength lexeme.source) after = .ok later ∧
      ls = (offset, lexeme) :: later := by
  rw [lexemes] at h
  split at h
  · cases h
  · next lexeme after first =>
    split at h
    · cases h
    · next later hlater =>
      cases h
      exact ⟨lexeme, after, later, first, hlater, rfl⟩

theorem first_blank {c : Char} {rest after : List Char} {lexeme : Lexeme}
    (h : Lexeme.first c rest = .ok (lexeme, after)) (none : lexeme.kind = none) :
    Text.isBlank c = true ∧ after = rest := by
  unfold Lexeme.first at h
  split at h
  · next blank =>
    cases h
    exact ⟨blank, rfl⟩
  · repeat' split at h
    all_goals cases h
    all_goals cases none

theorem lexemes_blank {cs : List Char} {offset : Nat} {ls : List (Nat × Lexeme)}
    (h : lexemes offset cs = .ok ls) (none : ∀ l ∈ ls, l.2.kind = none) :
    ∀ c ∈ cs, Text.isBlank c = true := by
  induction hlength : cs.length using Nat.strongRecOn generalizing cs offset ls with
  | _ length ih =>
    cases cs with
    | nil => nofun
    | cons c rest =>
      obtain ⟨lexeme, after, later, first, hlater, rfl⟩ := lexemes_ok h
      rw [List.forall_mem_cons] at none
      obtain ⟨blank, rfl⟩ := first_blank first none.1
      rw [List.forall_mem_cons]
      exact ⟨blank, ih after.length (by simp [← hlength]) hlater none.2 rfl⟩

theorem braced (text : String) : ("\x7b\x7b" ++ text ++ "\x7d\x7d").toList =
    '\x7b' :: '\x7b' :: (text.toList ++ closingBraces) := by simp [closingBraces]

/-- A text names a variable if the first double brace that closes it is the one at its end, and
blanks are not all there is; the name is the text without blanks at its ends. -/
theorem names_iff {text name : String} :
    Names text name ↔
      Text.breakOn? closingBraces (text.toList ++ closingBraces) = some (text.toList, []) ∧
        Text.trim text.toList ≠ [] ∧ name = Text.trimmed text := by
  rw [Names, tokens, braced]
  constructor
  · intro h
    obtain ⟨ls, hls, only⟩ : ∃ ls,
        lexemes 0 ('\x7b' :: '\x7b' :: (text.toList ++ closingBraces)) = .ok ls ∧
          ls.filterMap (fun l => l.2.kind.map (Token.mk · l.1)) = [⟨.variable name, 0⟩] := by
      cases hls : lexemes 0 ('\x7b' :: '\x7b' :: (text.toList ++ closingBraces)) with
      | error e => rw [hls] at h; cases h
      | ok ls => rw [hls] at h; exact ⟨ls, rfl, Except.ok.inj h⟩
    obtain ⟨lexeme, after, later, first, hlater, rfl⟩ := lexemes_ok hls
    rw [first_variable] at first
    split at first
    · cases first
    · next inner after' found =>
      split at first
      · cases first
      · next nonempty =>
        cases first
        obtain ⟨rfl, none⟩ : String.ofList (Text.trim inner) = name ∧
            ∀ l ∈ later, l.2.kind = none := by
          simpa using only
        have blank := lexemes_blank hlater none
        have whole := Text.breakOn?_eq_some found
        obtain rfl | ⟨front, last, rfl⟩ := List.eq_nil_or_concat after
        · obtain rfl : text.toList = inner := by simpa using whole
          exact ⟨found, nonempty, rfl⟩
        · -- Behind the variable there are blanks, but the text ends in a brace.
          have ends : (text.toList ++ ['\x7d']) ++ ['\x7d'] =
              (inner ++ closingBraces ++ front) ++ [last] := by
            simpa [closingBraces] using whole
          obtain rfl := (List.append_singleton_inj.mp ends).2
          exact absurd (blank '\x7d' (by simp)) (by decide)
  · rintro ⟨found, nonempty, rfl⟩
    have first := first_variable (text.toList ++ closingBraces)
    rw [found] at first
    simp only [if_neg nonempty] at first
    have nothing (offset : Nat) : lexemes offset [] = .ok [] := by rw [lexemes]
    rw [lexemes_first first (nothing _)]
    rfl

theorem Lexes.variable {text name : String} (names : Names text name) {rest : List Char}
    {ks : List Kind} (later : Lexes rest ks) :
    Lexes ('\x7b' :: '\x7b' :: text.toList ++ '\x7d' :: '\x7d' :: rest)
      (.variable name :: ks) := by
  obtain ⟨found, nonempty, rfl⟩ := names_iff.mp names
  have closed := Text.breakOn?_append found rest
  rw [List.append_assoc] at closed
  have first := first_variable (text.toList ++ (closingBraces ++ rest))
  rw [closed] at first
  simp only [if_neg nonempty] at first
  exact later.first first

/-- A character that no token but a bare word can hold, whatever follows it. -/
def isPlain (c : Char) : Bool :=
  !Text.isBlank c && !(['(', ')', '"', '\'', '\x7b', '>', '<', '!', '='].contains c)

theorem symbol?_plain {c : Char} (plain : isPlain c = true) (rest : List Char) :
    symbol? (c :: rest) = none := by
  unfold symbol?
  split <;> simp_all [isPlain]

theorem braces_plain {c : Char} (plain : isPlain c = true) (rest : List Char) :
    braces.isPrefixOf (c :: rest) = false := by
  have other : ('\x7b' == c) = false := beq_eq_false_iff_ne.mpr fun same => by
    rw [← same] at plain
    cases plain
  rw [braces, List.isPrefixOf_cons_cons, other]
  rfl

theorem not_endsWord {c : Char} (plain : isPlain c = true) (rest : List Char) :
    endsWord (c :: rest) = false := by
  rw [endsWord, symbol?_plain plain, braces_plain plain]
  simp_all [isPlain]

theorem bareWord_plain {word rest : List Char} (plain : ∀ c ∈ word, isPlain c = true)
    (stop : endsWord rest = true) : bareWord (word ++ rest) = (word, rest) := by
  induction word with
  | nil => cases rest with
    | nil => rfl
    | cons c rest => rw [List.nil_append, bareWord, if_pos stop]
  | cons c word ih =>
    rw [List.forall_mem_cons] at plain
    rw [List.cons_append, bareWord, not_endsWord plain.1, ih plain.2]
    rfl

theorem Lexes.word {c : Char} {word rest : List Char} {ks : List Kind}
    (plain : ∀ d ∈ c :: word, isPlain d = true) (stop : endsWord rest = true)
    (later : Lexes rest ks) :
    Lexes (c :: word ++ rest) (.word (String.ofList (c :: word)) :: ks) := by
  have whole : bareWord (c :: (word ++ rest)) = (c :: word, rest) := bareWord_plain plain stop
  rw [List.forall_mem_cons] at plain
  have first : Lexeme.first c (word ++ rest) =
      .ok (⟨c :: word, some (.word (String.ofList (c :: word)))⟩, rest) := by
    rw [Lexeme.first, symbol?_plain plain.1, braces_plain plain.1, whole]
    simp_all [isPlain]
  exact later.first first

/-- A comparison is read off any of its spellings in front of a blank. -/
theorem Lexes.comparison {op : Comparison} {spelling : String} (spelt : spelling ∈ op.spellings)
    {rest : List Char} {ks : List Kind} (later : Lexes rest ks) :
    ∃ signs, op.Spelt (signs ++ ks) ks ∧
      Lexes (spelling.toList ++ ' ' :: rest) (signs ++ ks) := by
  have blank : Lexes (' ' :: rest) ks := later.blank rfl
  have stop (cs : List Char) : endsWord (' ' :: cs) = true := rfl
  have sign {c : Char} {cs : List Char} {sign : List Char}
      (first : Lexeme.first c cs = .ok (⟨sign, some (.symbol op)⟩, ' ' :: rest)) :
      Lexes (c :: cs) (.symbol op :: ks) := blank.first first
  have contains : Lexes ("CONTAINS".toList ++ ' ' :: rest) (.word "CONTAINS" :: ks) :=
    @Lexes.word 'C' "ONTAINS".toList _ _ (List.all_eq_true.mp (by decide)) (stop _) blank
  simp only [Comparison.spellings, Comparison.spelling] at spelt
  cases op with
  | contains =>
    obtain rfl := List.mem_singleton.mp spelt
    exact ⟨[.word "CONTAINS"], .contains ks, contains⟩
  | notContains =>
    obtain rfl := List.mem_singleton.mp spelt
    exact ⟨[.word "NOT", .word "CONTAINS"], .notContains ks,
      @Lexes.word 'N' "OT".toList _ _ (List.all_eq_true.mp (by decide)) (stop _)
        (contains.blank (c := ' ') rfl)⟩
  | gt =>
    refine ⟨[.symbol .gt], .symbol .gt ks, ?_⟩
    obtain rfl | rfl : spelling = ">>" ∨ spelling = ">" := by simpa using spelt
    · exact sign rfl
    · exact sign rfl
  | lt =>
    refine ⟨[.symbol .lt], .symbol .lt ks, ?_⟩
    obtain rfl | rfl : spelling = "<<" ∨ spelling = "<" := by simpa using spelt
    · exact sign rfl
    · exact sign rfl
  | ge | le | ne | eq =>
    obtain rfl := List.mem_singleton.mp spelt
    exact ⟨[.symbol _], .symbol _ ks, sign rfl⟩

/-- A comparison of a variable with an operand that takes up the rest of the text. -/
theorem reads_comparison {text name spelling right : String} {op : Comparison} {operand : Operand}
    {ks : List Kind} (names : Names text name) (spelt : spelling ∈ op.spellings)
    (lexes : Lexes right.toList ks) (alone : operand.Spelt ks []) :
    Condition.ofText ("\x7b\x7b" ++ text ++ "\x7d\x7d " ++ spelling ++ " " ++ right) =
      .ok (.compare (.variable name) op operand) := by
  obtain ⟨signs, sign, compared⟩ := lexes.comparison spelt
  have whole := (compared.blank (c := ' ') rfl).variable names
  refine Lexes.ofText (show Lexes _ (.variable name :: (signs ++ ks)) by simpa using whole) ?_
  exact .inr (.conjunction (.factor (.predicate (.compare (.named name _) sign alone))))

end Condition
end Dialogue
