import Dialogue.Text
/-!
Where a text is broken, and how it is trimmed. Main statement: what is found is the first place of
the mark, and nothing is found only in a text that the mark is no part of.
-/
namespace Dialogue.Text

def FirstAt (mark before after : List Char) : Prop :=
  ∀ other back, before ++ mark ++ after = other ++ mark ++ back → before.length ≤ other.length

theorem breakOn?_here {mark : List Char} (rest : List Char) :
    breakOn? mark (mark ++ rest) = some ([], rest) := by
  cases mark with
  | nil => cases rest <;> rfl
  | cons m mark =>
    have starts : (m :: mark).isPrefixOf (m :: mark ++ rest) = true :=
      List.isPrefixOf_iff_prefix.mpr (List.prefix_append _ rest)
    rw [List.cons_append] at starts ⊢
    rw [breakOn?, if_pos starts, ← List.cons_append, List.drop_left]

theorem breakOn?_further {mark : List Char} {c : Char} {rest : List Char}
    (later : ¬ mark <+: c :: rest) :
    breakOn? mark (c :: rest) =
      (breakOn? mark rest).map fun (before, after) => (c :: before, after) := by
  rw [breakOn?, if_neg fun starts => later (List.isPrefixOf_iff_prefix.mp starts)]

theorem FirstAt.cons {mark before after : List Char} {c : Char} (first : FirstAt mark before after)
    (later : ¬ mark <+: c :: (before ++ mark ++ after)) : FirstAt mark (c :: before) after := by
  intro other back split
  cases other with
  | nil => exact absurd ⟨back, by simpa using split.symm⟩ later
  | cons d other =>
    rw [List.cons_append, List.cons_append, List.cons_append, List.cons_append] at split
    have := first other back (List.cons.inj split).2
    simp only [List.length_cons]
    omega

theorem FirstAt.tail {mark before after : List Char} {c : Char}
    (first : FirstAt mark (c :: before) after) : FirstAt mark before after := by
  intro other back split
  have := first (c :: other) back (by simp only [List.cons_append, split])
  simpa using this

theorem FirstAt.not_prefix {mark before after : List Char} {c : Char}
    (first : FirstAt mark (c :: before) after) :
    ¬ mark <+: c :: (before ++ mark ++ after) := by
  rintro ⟨back, split⟩
  have := first [] back (by simpa using split.symm)
  simp at this

/-- A text is broken at the first place of the mark. -/
theorem breakOn?_eq_some_iff {mark cs before after : List Char} :
    breakOn? mark cs = some (before, after) ↔
      cs = before ++ mark ++ after ∧ FirstAt mark before after := by
  constructor
  · intro found
    refine ⟨breakOn?_eq_some found, ?_⟩
    induction cs generalizing before with
    | nil =>
      have whole := breakOn?_eq_some found
      simp only [List.nil_eq, List.append_eq_nil_iff] at whole
      obtain ⟨⟨rfl, -⟩, -⟩ := whole
      exact fun other _ _ => Nat.zero_le other.length
    | cons c rest ih =>
      by_cases here : mark <+: c :: rest
      · rw [breakOn?, if_pos (List.isPrefixOf_iff_prefix.mpr here)] at found
        cases found
        exact fun other _ _ => Nat.zero_le other.length
      · rw [breakOn?_further here] at found
        obtain ⟨⟨front, back⟩, found, ⟨⟩⟩ := Option.map_eq_some_iff.mp found
        rw [breakOn?_eq_some found] at here
        exact (ih found).cons here
  · rintro ⟨rfl, first⟩
    induction before with
    | nil => exact breakOn?_here after
    | cons c before ih =>
      rw [List.cons_append, List.cons_append, breakOn?_further first.not_prefix, ih first.tail]
      rfl

theorem breakOn?_eq_none_iff {mark cs : List Char} : breakOn? mark cs = none ↔ ¬ mark <:+: cs := by
  constructor
  · rintro absent ⟨before, after, rfl⟩
    induction before with
    | nil =>
      rw [List.nil_append, breakOn?_here] at absent
      cases absent
    | cons c before ih =>
      by_cases here : mark <+: c :: (before ++ mark ++ after)
      · obtain ⟨back, split⟩ := here
        rw [List.cons_append, List.cons_append, ← split, breakOn?_here] at absent
        cases absent
      · rw [List.cons_append, List.cons_append, breakOn?_further here,
          Option.map_eq_none_iff] at absent
        exact ih absent
  · intro absent
    cases found : breakOn? mark cs with
    | none => rfl
    | some parts =>
      obtain ⟨before, after⟩ := parts
      exact absurd ⟨before, after, (breakOn?_eq_some found).symm⟩ absent

/-- No mark begins in front of a character that it does not hold and ends behind it. -/
theorem not_prefix_across {mark cs rest : List Char} {c : Char} (outside : c ∉ mark)
    (absent : ¬ mark <+: cs) : ¬ mark <+: cs ++ c :: rest := by
  intro starts
  rcases Nat.lt_or_ge cs.length mark.length with long | short
  · have whole : cs ++ [c] <+: cs ++ c :: rest := ⟨rest, by simp⟩
    have inside := List.prefix_of_prefix_length_le whole starts
      (by rw [List.length_append]; exact long)
    exact outside (inside.subset (by simp))
  · exact absent (List.prefix_of_prefix_length_le starts (List.prefix_append cs _) short)

/-- A text without the mark is passed over, up to a character that the mark does not hold. -/
theorem breakOn?_across {mark cs rest : List Char} {c : Char} (outside : c ∉ mark)
    (absent : ¬ mark <:+: cs) : breakOn? mark (cs ++ c :: rest) =
      (breakOn? mark rest).map fun (before, after) => (cs ++ c :: before, after) := by
  induction cs with
  | nil => exact breakOn?_further (not_prefix_across outside (mt List.IsPrefix.isInfix absent))
  | cons d cs ih =>
    have later : ¬ mark <+: d :: (cs ++ c :: rest) :=
      @not_prefix_across mark (d :: cs) rest c outside (mt List.IsPrefix.isInfix absent)
    have absent : ¬ mark <:+: cs := mt (List.infix_cons ·) absent
    rw [List.cons_append, breakOn?_further later, ih absent, Option.map_map]
    rfl

theorem breakOn?_free {mark front rest : List Char} (nonempty : mark ≠ [])
    (free : ∀ c ∈ front, c ∉ mark) : breakOn? mark (front ++ rest) =
      (breakOn? mark rest).map fun (before, after) => (front ++ before, after) := by
  induction front with
  | nil => simp
  | cons c front ih =>
    rw [List.forall_mem_cons] at free
    have later : ¬ mark <+: [] ++ c :: (front ++ rest) :=
      not_prefix_across free.1 (by simpa using nonempty)
    rw [List.cons_append, breakOn?_further later, ih free.2, Option.map_map]
    rfl

section Trimming
variable {front core back cs : List Char}

theorem trimFront_blanks (blanks : ∀ c ∈ front, isBlank c = true) (cs : List Char) :
    trimFront (front ++ cs) = trimFront cs :=
  List.dropWhile_append_of_pos blanks

theorem trimFront_visible (visible : ∀ c ∈ cs.head?, isBlank c = false) : trimFront cs = cs := by
  cases cs with
  | nil => rfl
  | cons c cs => exact List.dropWhile_cons_of_neg (by simp [visible c rfl])

theorem trim_front (blanks : ∀ c ∈ front, isBlank c = true) (cs : List Char) :
    trim (front ++ cs) = trim cs := by
  rw [trim, trimFront_blanks blanks, trim]

/-- Blanks around a text that neither begins nor ends with one are what is trimmed. -/
theorem trim_around (before : ∀ c ∈ front, isBlank c = true) (behind : ∀ c ∈ back, isBlank c = true)
    (first : ∀ c ∈ core.head?, isBlank c = false) (last : ∀ c ∈ core.getLast?, isBlank c = false)
    (nonempty : core ≠ []) : trim (front ++ (core ++ back)) = core := by
  have starts : ∀ c ∈ (core ++ back).head?, isBlank c = false := by
    obtain ⟨c, core, rfl⟩ := List.exists_cons_of_ne_nil nonempty
    exact first
  rw [trim_front before, trim, trimFront_visible starts, List.reverse_append,
    trimFront_blanks (by simpa using behind), trimFront_visible (by simpa using last),
    List.reverse_reverse]

theorem trimFront_split (cs : List Char) :
    ∃ front, (∀ c ∈ front, isBlank c = true) ∧ cs = front ++ trimFront cs :=
  ⟨cs.takeWhile isBlank, List.all_eq_true.mp List.all_takeWhile,
    List.takeWhile_append_dropWhile.symm⟩

/-- Only blanks are trimmed. -/
theorem trim_split (cs : List Char) :
    ∃ front back, (∀ c ∈ front ++ back, isBlank c = true) ∧ cs = front ++ trim cs ++ back := by
  obtain ⟨front, before, split⟩ := trimFront_split cs
  obtain ⟨back, behind, split'⟩ := trimFront_split (trimFront cs).reverse
  refine ⟨front, back.reverse, ?_, ?_⟩
  · simpa [or_imp, forall_and] using ⟨before, behind⟩
  · rw [List.append_assoc, trim, ← List.reverse_append, ← split', List.reverse_reverse, ← split]

end Trimming

end Dialogue.Text
