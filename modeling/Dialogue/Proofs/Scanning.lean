import Dialogue.Variables
/-!
How a template is scanned: from the left, and on behind each placeholder. Main statement: a
placeholder is found behind any text that leaves no double brace open, and the text in front of it
is filled in as it would be alone.
-/
namespace Dialogue.Template

open Json (Value)

def IsName (name : List Char) : Prop := name ≠ [] ∧ '\x7d' ∉ name

def written (name : List Char) : List Char := '\x7b' :: '\x7b' :: name ++ ['\x7d', '\x7d']

theorem written_append (name after : List Char) : written name ++ after =
    '\x7b' :: '\x7b' :: (name ++ '\x7d' :: '\x7d' :: after) := by
  simp [written]

theorem placeholder?_written {name : List Char} (h : IsName name) (after : List Char) :
    placeholder? (written name ++ after) = some (name, after) := by
  obtain ⟨c, name, rfl⟩ := List.exists_cons_of_ne_nil h.1
  have inside : ∀ d ∈ c :: name, decide (d ≠ '\x7d') = true := fun d hd =>
    decide_eq_true fun closing => h.2 (closing ▸ hd)
  rw [written_append, placeholder?, List.takeWhile_append_of_pos inside,
    List.dropWhile_append_of_pos inside]
  simp

theorem isName_of_placeholder? {cs name after : List Char}
    (h : placeholder? cs = some (name, after)) : IsName name := by
  unfold placeholder? at h
  split at h
  · split at h
    · next hn _ =>
      cases h
      refine ⟨List.cons_ne_nil _ _, fun closing => ?_⟩
      rw [← hn] at closing
      simpa using List.all_eq_true.mp List.all_takeWhile _ closing
    · cases h
  · cases h

/-- A placeholder begins here exactly if one is written here. -/
theorem placeholder?_iff {cs name after : List Char} :
    placeholder? cs = some (name, after) ↔ IsName name ∧ cs = written name ++ after := by
  constructor
  · intro h
    refine ⟨isName_of_placeholder? h, ?_⟩
    rw [placeholder?_eq_some h]
    simp [written]
  · rintro ⟨h, rfl⟩
    exact placeholder?_written h after

theorem not_placeholder_of_ne {c : Char} (h : c ≠ '\x7b') (rest : List Char) :
    placeholder? (c :: rest) = none := by
  cases hp : placeholder? (c :: rest) with
  | none => rfl
  | some found =>
    obtain ⟨-, shape⟩ := placeholder?_iff.mp hp
    exact absurd (List.cons.inj shape).1 h

inductive Finds : List Char → List Char → Prop where
  | here {cs name after : List Char} (found : placeholder? cs = some (name, after)) : Finds cs name
  | behind {cs other after name : List Char} (found : placeholder? cs = some (other, after))
      (later : Finds after name) : Finds cs name
  | onward {c : Char} {rest name : List Char} (plain : placeholder? (c :: rest) = none)
      (later : Finds rest name) : Finds (c :: rest) name

theorem not_finds_nil {name : List Char} : ¬ Finds [] name := by
  intro h
  cases h with
  | here found => cases found
  | behind found => cases found

theorem Finds.of_written {name other after : List Char} (h : IsName name)
    (finds : Finds (written name ++ after) other) : other = name ∨ Finds after other := by
  have first := placeholder?_written h after
  generalize written name ++ after = cs at first finds
  cases finds with
  | here found =>
    rw [found] at first
    cases first
    exact .inl rfl
  | behind found later =>
    rw [found] at first
    cases first
    exact .inr later
  | onward plain => cases plain.symm.trans first

variable {lookup : String → Option Value}

@[simp] theorem expand_nil : expand lookup [] = [] := by rw [expand]

theorem expand_found {cs name after : List Char} (h : placeholder? cs = some (name, after)) :
    expand lookup cs = resolve lookup name ++ expand lookup after := by
  cases cs with
  | nil => cases h
  | cons c rest =>
    rw [expand]
    split
    · next h' =>
      rw [h] at h'
      cases h'
      rfl
    · next h' =>
      rw [h] at h'
      cases h'

theorem expand_written {name : List Char} (h : IsName name) (after : List Char) :
    expand lookup (written name ++ after) = resolve lookup name ++ expand lookup after :=
  expand_found (placeholder?_written h after)

theorem expand_plain {c : Char} {rest : List Char} (h : placeholder? (c :: rest) = none) :
    expand lookup (c :: rest) = c :: expand lookup rest := by
  rw [expand]
  split
  · next h' =>
    rw [h] at h'
    cases h'
  · rfl

/-- Nothing in a text without opening braces is filled in. -/
theorem expand_unopened {cs : List Char} (h : '\x7b' ∉ cs) (rest : List Char) :
    expand lookup (cs ++ rest) = cs ++ expand lookup rest := by
  induction cs with
  | nil => rfl
  | cons c cs ih =>
    rw [List.mem_cons, not_or] at h
    rw [List.cons_append, expand_plain (not_placeholder_of_ne (Ne.symm h.1) _), ih h.2,
      List.cons_append]

/-- A name without a value, or with null for one, is left as it is written; any other gives way to
the text of its value. -/
theorem resolve_cases (lookup : String → Option Value) (name : List Char) :
    ((∀ v, lookup (String.ofList (Text.trim name)) = some v → v.isNull = true) ∧
      resolve lookup name = written name) ∨
    ∃ v, lookup (String.ofList (Text.trim name)) = some v ∧ v.isNull = false ∧
      resolve lookup name = v.display.toList := by
  unfold resolve
  split
  · next h => exact .inl ⟨fun v hv => by simp [h] at hv, rfl⟩
  · next h => exact .inl ⟨fun v hv => by rw [h] at hv; cases hv; rfl, rfl⟩
  · next v present h =>
    refine .inr ⟨v, h, ?_, rfl⟩
    cases v with
    | null => exact absurd rfl present
    | _ => rfl

/-- No double brace is left open in front of another brace: behind each there is a closing one. -/
def Closed (cs : List Char) : Prop :=
  ∀ before rest, cs ++ ['\x7b'] = before ++ '\x7b' :: '\x7b' :: rest → '\x7d' ∈ rest

theorem Closed.of_append {front back : List Char} (h : Closed (front ++ back)) : Closed back := by
  intro before rest split
  refine h (front ++ before) rest ?_
  rw [List.append_assoc, split, List.append_assoc]

/-- No placeholder begins in a closed text and ends behind it. -/
theorem Closed.not_placeholder {c : Char} {front : List Char} (closed : Closed (c :: front))
    (plain : placeholder? (c :: front) = none) (rest : List Char) :
    placeholder? (c :: front ++ '\x7b' :: rest) = none := by
  cases hp : placeholder? (c :: front ++ '\x7b' :: rest) with
  | none => rfl
  | some found =>
    obtain ⟨name, after⟩ := found
    obtain ⟨isName, shape⟩ := placeholder?_iff.mp hp
    have whole : c :: (front ++ '\x7b' :: rest) =
        '\x7b' :: '\x7b' :: (name ++ '\x7d' :: '\x7d' :: after) :=
      shape.trans (written_append name after)
    obtain ⟨rfl, tail⟩ := List.cons.inj whole
    cases front with
    | nil => exact absurd (closed [] [] rfl) List.not_mem_nil
    | cons d inner =>
      obtain ⟨rfl, body⟩ := List.cons.inj tail
      have closing : '\x7d' ∈ inner := by simpa using closed [] (inner ++ ['\x7b']) rfl
      obtain ⟨more, rfl, -⟩ | ⟨more, rfl, behind⟩ := List.append_eq_append_iff.mp body
      · exact absurd (List.mem_append_left more closing) isName.2
      · match more with
        | [] => cases behind
        | [_] => cases behind
        | _ :: _ :: more =>
          cases behind
          have found := placeholder?_written isName more
          rw [written_append] at found
          cases plain.symm.trans found

/-- A placeholder is found behind any closed text, which is filled in as if it stood alone. -/
theorem expand_closed {front name : List Char} (closed : Closed front) (h : IsName name)
    (rest : List Char) :
    expand lookup (front ++ written name ++ rest) =
      expand lookup front ++ resolve lookup name ++ expand lookup rest := by
  induction front using expand.induct with
  | case1 => simpa using expand_written h rest
  | case2 c front other after found _ ih =>
    obtain ⟨other_name, shape⟩ := placeholder?_iff.mp found
    rw [shape] at closed
    rw [expand_found found, shape]
    simp only [List.append_assoc] at ih ⊢
    rw [expand_written other_name, ih closed.of_append]
  | case3 c front plain ih =>
    have further : placeholder? (c :: (front ++ (written name ++ rest))) = none :=
      closed.not_placeholder plain _
    rw [expand_plain plain]
    simp only [List.append_assoc, List.cons_append] at ih ⊢
    rw [expand_plain further, ih (@Closed.of_append [c] front closed)]

end Dialogue.Template

theorem Dialogue.Variables.interpolate_eq (vars : Variables) (template : String) :
    vars.interpolate template = String.ofList (Template.expand vars.get? template.toList) := rfl
