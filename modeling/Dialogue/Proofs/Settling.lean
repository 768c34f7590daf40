import Dialogue.Proofs.Scanning
/-!
Filling in a template twice. Main statement: values without braces leave nothing to fill in a second
time, and a template stays as it is if none of its placeholders has a value.
-/
namespace Dialogue
namespace Template

open Json (Value)

/-- A text that joins no braces around it and brings none. -/
def IsPlain (text : List Char) : Prop := text ≠ [] ∧ '\x7b' ∉ text ∧ '\x7d' ∉ text

instance (text : List Char) : Decidable (IsPlain text) := inferInstanceAs (Decidable (_ ∧ _ ∧ _))

def ShowsPlain (lookup : String → Option Value) : Prop :=
  ∀ name v, lookup name = some v → v.isNull = false → IsPlain v.display.toList

variable {lookup : String → Option Value}

/-- A placeholder is left as it is written or gives way to plain text. -/
theorem ShowsPlain.resolve_cases (plain : ShowsPlain lookup) (name : List Char) :
    resolve lookup name = written name ∨ IsPlain (resolve lookup name) := by
  obtain ⟨-, left⟩ | ⟨v, found, present, shown⟩ := Template.resolve_cases lookup name
  · exact .inl left
  · exact .inr (shown ▸ plain _ v found present)

/-- A brace at the front of the outcome was there before. -/
theorem ShowsPlain.front_brace (plain : ShowsPlain lookup) {cs out : List Char} {d : Char}
    (h : expand lookup cs = d :: out) (brace : d = '\x7b' ∨ d = '\x7d') :
    ∃ rest, cs = d :: rest := by
  cases cs with
  | nil => simp at h
  | cons c rest =>
    cases hp : placeholder? (c :: rest) with
    | none =>
      rw [expand_plain hp] at h
      exact ⟨rest, by rw [(List.cons.inj h).1]⟩
    | some found =>
      obtain ⟨name, after⟩ := found
      rw [expand_found hp] at h
      rw [(placeholder?_iff.mp hp).2]
      rcases plain.resolve_cases name with left | ⟨some, unopened, unclosed⟩
      · rw [left] at h
        rw [written, List.cons_append, List.cons_append] at h ⊢
        exact ⟨_, by rw [(List.cons.inj h).1]⟩
      · obtain ⟨e, more, hv⟩ := List.exists_cons_of_ne_nil some
        rw [hv] at h unopened unclosed
        obtain rfl : e = d := (List.cons.inj h).1
        rcases brace with rfl | rfl
        · exact absurd List.mem_cons_self unopened
        · exact absurd List.mem_cons_self unclosed

/-- A name that is closed in the outcome was closed before. -/
theorem ShowsPlain.closes (plain : ShowsPlain lookup) {cs name after : List Char}
    (unclosed : '\x7d' ∉ name) (h : expand lookup cs = name ++ '\x7d' :: '\x7d' :: after) :
    ∃ name' after', '\x7d' ∉ name' ∧ (name ≠ [] → name' ≠ []) ∧
      cs = name' ++ '\x7d' :: '\x7d' :: after' := by
  induction cs using expand.induct generalizing name with
  | case1 => simp at h
  | case2 c rest other behind found _ ih =>
    obtain ⟨isName, shape⟩ := placeholder?_iff.mp found
    refine ⟨'\x7b' :: '\x7b' :: other, behind, ?_, fun _ => List.cons_ne_nil _ _, ?_⟩
    · simpa using isName.2
    · exact shape.trans (written_append other behind)
  | case3 c rest hp ih =>
    rw [expand_plain hp] at h
    cases name with
    | nil =>
      obtain ⟨rfl, tail⟩ := List.cons.inj h
      obtain ⟨rest, rfl⟩ := plain.front_brace tail (.inr rfl)
      exact ⟨[], rest, List.not_mem_nil, fun h => absurd rfl h, rfl⟩
    | cons d name =>
      obtain ⟨rfl, tail⟩ := List.cons.inj h
      rw [List.mem_cons, not_or] at unclosed
      obtain ⟨name', after', unclosed', -, rfl⟩ := ih unclosed.2 tail
      refine ⟨c :: name', after', ?_, fun _ => List.cons_ne_nil _ _, rfl⟩
      simp [unclosed.1, unclosed']

/-- Where no placeholder begins, none begins in the outcome. -/
theorem ShowsPlain.not_placeholder (plain : ShowsPlain lookup) {c : Char} {rest : List Char}
    (hp : placeholder? (c :: rest) = none) : placeholder? (c :: expand lookup rest) = none := by
  cases hout : placeholder? (c :: expand lookup rest) with
  | none => rfl
  | some found =>
    obtain ⟨name, after⟩ := found
    obtain ⟨isName, shape⟩ := placeholder?_iff.mp hout
    have whole : c :: expand lookup rest =
        '\x7b' :: '\x7b' :: (name ++ '\x7d' :: '\x7d' :: after) :=
      shape.trans (written_append name after)
    obtain ⟨rfl, tail⟩ := List.cons.inj whole
    obtain ⟨inner, rfl⟩ := plain.front_brace tail (.inl rfl)
    have later : placeholder? ('\x7b' :: inner) = none := by
      cases hlater : placeholder? ('\x7b' :: inner) with
      | none => rfl
      | some found =>
        obtain ⟨other, behind⟩ := found
        obtain ⟨⟨-, unclosed⟩, shape⟩ := placeholder?_iff.mp hlater
        -- A third brace in front would belong to the name.
        have joined : IsName ('\x7b' :: other) := ⟨List.cons_ne_nil _ _, by simpa using unclosed⟩
        have found := placeholder?_written joined behind
        simp only [shape, written, List.cons_append] at hp found
        cases hp.symm.trans found
    rw [expand_plain later] at tail
    obtain ⟨name', after', unclosed, filled, rfl⟩ := plain.closes isName.2 (List.cons.inj tail).2
    have found := placeholder?_written ⟨filled isName.1, unclosed⟩ after'
    rw [written_append] at found
    cases hp.symm.trans found

/-- What is filled in once is not filled in again. -/
theorem ShowsPlain.expand_expand (plain : ShowsPlain lookup) (cs : List Char) :
    expand lookup (expand lookup cs) = expand lookup cs := by
  induction cs using expand.induct with
  | case1 => simp
  | case2 c rest name after found _ ih =>
    rw [expand_found found]
    rcases plain.resolve_cases name with left | ⟨-, unopened, -⟩
    · rw [left, expand_written (isName_of_placeholder? found), left, ih]
    · rw [expand_unopened unopened, ih]
  | case3 c rest hp ih =>
    rw [expand_plain hp, expand_plain (plain.not_placeholder hp), ih]

/-- A text in which every placeholder that is found lacks a value stays as it is. -/
theorem expand_unresolved {cs : List Char}
    (h : ∀ name, Finds cs name → resolve lookup name = written name) : expand lookup cs = cs := by
  induction cs using expand.induct with
  | case1 => simp
  | case2 c rest name after found _ ih =>
    rw [expand_found found, h name (.here found),
      ih fun other later => h other (.behind found later)]
    exact (placeholder?_iff.mp found).2.symm
  | case3 c rest hp ih =>
    rw [expand_plain hp, ih fun name later => h name (.onward hp later)]

end Template

namespace Variables

open Template (Finds ShowsPlain)

theorem showsPlain_of_values {vars : Variables}
    (h : ∀ entry ∈ vars.values, entry.2.isNull = false →
      Template.IsPlain entry.2.display.toList) : ShowsPlain vars.get? := by
  intro name v found present
  obtain ⟨front, back, listed, -⟩ := List.lookup_eq_some_iff.mp found
  exact h (name, v) (by simp [listed]) present

theorem resolve_absent {vars : Variables} {name : List Char}
    (h : vars.isPresent (String.ofList (Text.trim name)) = false) :
    Template.resolve vars.get? name = Template.written name := by
  obtain ⟨-, left⟩ | ⟨v, found, present, -⟩ := Template.resolve_cases vars.get? name
  · exact left
  · rw [isPresent, found] at h
    cases v with
    | null => cases present
    | _ => cases h

/-- Filling in a template a second time changes nothing, provided that no value is shown with a
brace or as the empty text. A template is not changed at all if no placeholder that is found in it
has a value other than null. -/
theorem interpolation_settles (vars : Variables) (template : String) :
    (ShowsPlain vars.get? →
      vars.interpolate (vars.interpolate template) = vars.interpolate template) ∧
    ((∀ name, Finds template.toList name →
        vars.isPresent (String.ofList (Text.trim name)) = false) →
      vars.interpolate template = template) := by
  simp only [interpolate_eq, String.toList_ofList]
  refine ⟨fun plain => by rw [plain.expand_expand], fun absent => ?_⟩
  rw [Template.expand_unresolved fun name found => resolve_absent (absent name found),
    String.ofList_toList]

def guest : Variables :=
  .ofInitial [("age", .int 30), ("gone", .null), ("name", .string "Sam"), ("\x7bvip", .bool true)]

def ragged : String :=
  "\x7b\x7b name \x7d\x7d is \x7b\x7bage\x7d\x7d\x7d, \x7b\x7b\x7bvip\x7d\x7d, " ++
    "\x7b\x7b\x7d \x7b\x7bx \x7b\x7bname\x7d\x7d \x7d\x7d"

/-- What is left of it holds placeholders of other names only, of which one holds a known name. -/
theorem guest_settles :
    (ShowsPlain guest.get? ∧
      guest.interpolate ragged =
        "Sam is 30\x7d, true, \x7b\x7b\x7d \x7b\x7bx \x7b\x7bname\x7d\x7d \x7d\x7d" ∧
      guest.interpolate (guest.interpolate ragged) = guest.interpolate ragged) ∧
    guest.isPresent "name" = true ∧ guest.isPresent "x \x7b\x7bname" = false ∧
      guest.interpolate "\x7b\x7bx \x7b\x7bname\x7d\x7d" = "\x7b\x7bx \x7b\x7bname\x7d\x7d" := by
  have plain : ShowsPlain guest.get? := showsPlain_of_values (by decide +kernel)
  refine ⟨⟨plain, by decide +kernel, (interpolation_settles guest ragged).1 plain⟩,
    by decide +kernel, by decide +kernel, (interpolation_settles guest _).2 fun name found => ?_⟩
  obtain rfl | later := @Finds.of_written "x \x7b\x7bname".toList _ [] ⟨by decide, by decide⟩ found
  · decide +kernel
  · exact absurd later Template.not_finds_nil

end Variables
end Dialogue
