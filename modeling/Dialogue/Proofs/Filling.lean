import Dialogue.Proofs.Scanning
import Mathlib.Data.List.Infix
/-!
The placeholder of a known name within a text. Main statement: it gives way to its value wherever
the text in front leaves no double brace open; a brace left open takes it into a longer name.
-/
namespace Dialogue
namespace Template

open Json (Value)

instance : DecidablePred Closed := fun cs =>
  decidable_of_iff
    (∀ tail ∈ (cs ++ ['\x7b']).tails, ['\x7b', '\x7b'] <+: tail → '\x7d' ∈ tail.drop 2) <| by
      simp only [List.mem_tails]
      constructor
      · intro h before rest split
        exact h _ ⟨before, split.symm⟩ ⟨rest, rfl⟩
      · rintro h tail ⟨before, split⟩ ⟨rest, rfl⟩
        exact h before rest split.symm

theorem not_closed_iff {cs : List Char} :
    ¬ Closed cs ↔ ∃ before inner,
      cs ++ ['\x7b'] = before ++ '\x7b' :: '\x7b' :: inner ∧ '\x7d' ∉ inner := by
  simp [Closed]

/-- A text that is not closed has a first double brace that is left open. -/
theorem exists_open {cs : List Char} (h : ¬ Closed cs) :
    ∃ before inner, Closed before ∧ '\x7d' ∉ inner ∧
      cs ++ ['\x7b'] = before ++ '\x7b' :: '\x7b' :: inner := by
  obtain ⟨before, inner, split, unclosed⟩ := not_closed_iff.mp h
  induction length : before.length using Nat.strongRecOn generalizing before inner with
  | _ n ih =>
    by_cases closed : Closed before
    · exact ⟨before, inner, closed, unclosed, split⟩
    · obtain ⟨earlier, more, parts, unclosed'⟩ := not_closed_iff.mp closed
      have shorter := congrArg List.length parts
      simp only [List.length_append, List.length_cons, List.length_nil] at shorter
      refine ih earlier.length (by omega) earlier (more ++ '\x7b' :: inner) ?_ ?_ rfl
      · calc cs ++ ['\x7b'] = (before ++ ['\x7b']) ++ '\x7b' :: inner := by simp [split]
          _ = earlier ++ '\x7b' :: '\x7b' :: (more ++ '\x7b' :: inner) := by simp [parts]
      · simp [unclosed', unclosed]

end Template

namespace Variables

open Template (Closed IsName expand_closed)
open Json (Value)

def placeholder (name : String) : String := "\x7b\x7b" ++ name ++ "\x7d\x7d"

def shown (vars : Variables) (name : String) : String :=
  match vars.get? (Text.trimmed name) with
  | none | some .null => placeholder name
  | some v => v.display

theorem toList_placeholder (name : String) :
    (placeholder name).toList = Template.written name.toList := by
  simp [placeholder, Template.written]

theorem shown_present {vars : Variables} {name : String} {v : Value}
    (found : vars.get? (Text.trimmed name) = some v) (present : v.isNull = false) :
    vars.shown name = v.display := by
  rw [shown, found]
  cases v with
  | null => cases present
  | _ => rfl

theorem resolve_eq (vars : Variables) (name : String) :
    Template.resolve vars.get? name.toList = (vars.shown name).toList := by
  rw [Template.resolve, shown, Text.trimmed]
  generalize vars.get? (String.ofList (Text.trim name.toList)) = found
  match found with
  | none | some .null => exact (toList_placeholder name).symm
  | some (.bool _) | some (.number _) | some (.string _) | some (.array _) | some (.object _) => rfl

/-- A placeholder behind a closed text is found as it stands there. -/
theorem interpolate_closed (vars : Variables) {name front : String} (isName : IsName name.toList)
    (closed : Closed front.toList) (back : String) :
    vars.interpolate (front ++ placeholder name ++ back) =
      vars.interpolate front ++ vars.shown name ++ vars.interpolate back := by
  apply String.toList_injective
  simp only [interpolate_eq, String.toList_append, String.toList_ofList, toList_placeholder,
    ← resolve_eq]
  exact expand_closed closed isName back.toList

/-- The placeholder of a known name gives way to its value, and the texts around it are filled in as
they would be alone, if the text in front is closed. Otherwise the first double brace that is left
open there begins another placeholder, of a longer name. -/
theorem placeholder_filled (vars : Variables) (name : String) (v : Value) (nonempty : name ≠ "")
    (trim : Text.trimmed name = name) (unclosed : '\x7d' ∉ name.toList)
    (found : vars.get? name = some v) (present : v.isNull = false) (front back : String) :
    (Closed front.toList →
      vars.interpolate (front ++ placeholder name ++ back) =
        vars.interpolate front ++ v.display ++ vars.interpolate back) ∧
    (¬ Closed front.toList →
      ∃ before inner, Closed before.toList ∧ '\x7d' ∉ inner.toList ∧
        front ++ "\x7b" = before ++ "\x7b\x7b" ++ inner ∧
        vars.interpolate (front ++ placeholder name ++ back) =
          vars.interpolate before ++ vars.shown (inner ++ "\x7b" ++ name) ++
            vars.interpolate back) := by
  constructor
  · intro closed
    have isName : IsName name.toList := ⟨by simpa using nonempty, unclosed⟩
    rw [vars.interpolate_closed isName closed, shown_present (trim.symm ▸ found) present]
  · intro left
    obtain ⟨before, inner, closed, unclosed', split⟩ := Template.exists_open left
    have isName : IsName (String.ofList inner ++ "\x7b" ++ name).toList := by
      simp [IsName, unclosed, unclosed']
    have whole : front ++ placeholder name =
        String.ofList before ++ placeholder (String.ofList inner ++ "\x7b" ++ name) := by
      apply String.toList_injective
      have longer := congrArg (· ++ '\x7b' :: (name.toList ++ ['\x7d', '\x7d'])) split
      simpa [toList_placeholder, Template.written] using longer
    refine ⟨String.ofList before, String.ofList inner, by simpa using closed,
      by simpa using unclosed', ?_, ?_⟩
    · apply String.toList_injective
      simpa using split
    · rw [whole, vars.interpolate_closed isName (by simpa using closed)]

def patron : Variables := .ofInitial [("name", .string "Sam")]

/-- Single braces, and double ones that come to nothing, are no part of the placeholder. -/
theorem patron_filled :
    ("name" ≠ "" ∧ Text.trimmed "name" = "name" ∧ '\x7d' ∉ "name".toList ∧
      patron.get? "name" = some (.string "Sam") ∧ Value.isNull (.string "Sam") = false) ∧
    (Closed "\x7b\x7b\x7dHi\x7b \x7b\x7by\x7d ".toList ∧
      patron.interpolate "\x7b\x7b\x7dHi\x7b \x7b\x7by\x7d \x7b\x7bname\x7d\x7d\x7d" =
        "\x7b\x7b\x7dHi\x7b \x7b\x7by\x7d Sam\x7d") ∧
    ¬ Closed "\x7b\x7bx ".toList ∧
      ∃ before inner, Closed before.toList ∧ '\x7d' ∉ inner.toList ∧
        "\x7b\x7bx " ++ "\x7b" = before ++ "\x7b\x7b" ++ inner ∧
        patron.interpolate ("\x7b\x7bx " ++ placeholder "name" ++ "") =
          patron.interpolate before ++ patron.shown (inner ++ "\x7b" ++ "name") ++
            patron.interpolate "" := by
  have found : patron.get? "name" = some (.string "Sam") := rfl
  have filled (front : String) := placeholder_filled patron "name" (.string "Sam") (by decide)
    (by decide) (by decide) found rfl front
  refine ⟨⟨by decide, by decide, by decide, found, rfl⟩, ⟨by decide, ?_⟩, by decide,
    (filled "\x7b\x7bx " "").2 (by decide)⟩
  refine ((filled "\x7b\x7b\x7dHi\x7b \x7b\x7by\x7d " "\x7d").1 (by decide)).trans ?_
  decide +kernel

/-- One brace in front is enough to make it the placeholder of another name. -/
theorem brace_joins :
    ¬ ∀ (vars : Variables) (name : String) (v : Value), name ≠ "" → Text.trimmed name = name →
      '\x7b' ∉ name.toList → '\x7d' ∉ name.toList → vars.get? name = some v → v.isNull = false →
      ∀ front back : String,
        vars.interpolate (front ++ placeholder name ++ back) =
          vars.interpolate front ++ v.display ++ vars.interpolate back := by
  intro h
  have joined := h patron "name" (.string "Sam") (by decide) (by decide) (by decide) (by decide)
    rfl rfl "\x7b" ""
  revert joined
  decide +kernel

end Variables
end Dialogue
