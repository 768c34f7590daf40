import Dialogue.Json.Text
import Dialogue.Text
/-!
Templates: text in which a name between double braces stands for a value. Placeholders are found
from the left; one whose name has no value stays as it is written.
-/
namespace Dialogue.Template

open Json (Value)

/-- The name and the rest, when the text begins with a placeholder: two opening braces, one or more
characters other than a closing brace, two closing braces. -/
def placeholder? : List Char → Option (List Char × List Char)
  | '\x7b' :: '\x7b' :: rest =>
    match rest.takeWhile (· ≠ '\x7d'), rest.dropWhile (· ≠ '\x7d') with
    | c :: name, '\x7d' :: '\x7d' :: after => some (c :: name, after)
    | _, _ => none
  | _ => none

/-- A placeholder is its braces and its name. -/
theorem placeholder?_eq_some {cs name after : List Char}
    (h : placeholder? cs = some (name, after)) :
    cs = '\x7b' :: '\x7b' :: name ++ '\x7d' :: '\x7d' :: after := by
  unfold placeholder? at h
  split at h
  · next rest =>
    split at h
    · next c body tail hn ha =>
      cases h
      have := List.takeWhile_append_dropWhile (p := (· ≠ '\x7d')) (l := rest)
      rw [hn, ha] at this
      simp [← this]
    · cases h
  · cases h

/-- What follows a placeholder is shorter. -/
theorem placeholder?_length {cs name after : List Char}
    (h : placeholder? cs = some (name, after)) : after.length < cs.length := by
  rw [placeholder?_eq_some h]
  simp only [List.length_append, List.length_cons]
  omega

def resolve (lookup : String → Option Value) (name : List Char) : List Char :=
  match lookup (String.ofList (Text.trim name)) with
  | none | some .null => '\x7b' :: '\x7b' :: name ++ ['\x7d', '\x7d']
  | some v => v.display.toList

def expand (lookup : String → Option Value) : List Char → List Char
  | [] => []
  | c :: rest =>
    match h : placeholder? (c :: rest) with
    | some (name, after) =>
      have := placeholder?_length h
      resolve lookup name ++ expand lookup after
    | none => c :: expand lookup rest
termination_by cs => cs.length
decreasing_by
  · assumption
  · simp

end Dialogue.Template
