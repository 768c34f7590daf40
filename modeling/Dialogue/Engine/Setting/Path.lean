import Dialogue.Engine.Setting
/-!
Paths: names that lead to a field, or from a field down into it. Case does not matter in them.
-/
namespace Dialogue.Setting.Path

def isNameChar (c : Char) : Bool :=
  c.isAlphanum || c == '_' || c == '-' || c == ' '

def isPlace (cs : List Char) : Bool :=
  let number := ((cs.dropWhile isGap).reverse.dropWhile isGap).reverse
  number.head? != some '+' && (Literal.int? number).any Literal.isWord

def step? : List Char → Option (List Char)
  | '.' :: rest =>
    if (rest.takeWhile isNameChar).isEmpty then none else some (rest.dropWhile isNameChar)
  | '[' :: rest =>
    if isPlace (rest.takeWhile (· != ']')) then (rest.dropWhile (· != ']')).tail? else none
  | _ => none

theorem step?_length {cs rest : List Char} (h : step? cs = some rest) :
    rest.length < cs.length := by
  unfold step? at h
  split at h
  · next tail =>
    split at h
    · cases h
    · cases h
      have := (List.dropWhile_suffix isNameChar (l := tail)).length_le
      simp only [List.length_cons]
      omega
  · next tail =>
    split at h
    · have hs := (List.dropWhile_suffix (· != ']') (l := tail)).length_le
      cases hd : tail.dropWhile (· != ']') with
      | nil => rw [hd] at h; cases h
      | cons c more =>
        rw [hd] at h hs
        cases h
        simp only [List.length_cons] at hs ⊢
        omega
    · cases h
  · cases h

def isDescent (cs : List Char) : Bool :=
  match h : step? cs with
  | some rest =>
    have := step?_length h
    isDescent rest
  | none => cs.isEmpty
termination_by cs.length
decreasing_by assumption

/-- A character in small letters, as far as names can tell: the sign for kelvins is the one letter
beyond ASCII whose small form is a letter of names. -/
def small (c : Char) : Char :=
  if c == '\u212a' then 'k' else c.toLower

/-- The field to which a path leads and what it gets there: the setting, or a group when the path
goes on below the field. A name that is no path leads nowhere. -/
def place? (path : List Char) (s : Setting) : Option (String × Setting) :=
  let path := path.map small
  let field := path.takeWhile isNameChar
  let down := path.dropWhile isNameChar
  if field.isEmpty || !isDescent down then none
  else some (String.ofList field, if down.isEmpty then s else group)

end Dialogue.Setting.Path
