import Dialogue.Execution.Extraction
import Dialogue.Proofs.Comparing
import Dialogue.Proofs.Lexing
import Dialogue.Proofs.Numerals
import Dialogue.Proofs.Shortest
/-!
Numbers that are shown and read again. Main statement: a number is read back as itself, in a
condition as in a reply, unless it is a whole one beyond the signed words or a double that a single
digit and an exponent are enough for; these are read as the string they are shown as.
-/
namespace Dialogue

open Json (Number Value doubleLayout)

namespace Binary
variable {f : Format}

def decimal (tie : Tie) (x : Binary f) : Decimal :=
  if x.magnitude = 0 then ⟨0, 0⟩ else Decimal.shortest f tie x.magnitude

theorem toList_text (layout : Layout) (x : Binary f) : (x.text layout).toList =
    Literal.signed x.negative ((x.decimal layout.tie).text layout).toList := by
  rw [text, decimal, Literal.signed]
  split <;> split <;> simp

theorem ofDecimal_decimal (tie : Tie) {x : Double} (finite : x.isFinite = true) :
    Binary.ofDecimal .double x.negative (x.decimal tie).digits (x.decimal tie).exponent = x := by
  rw [ofDecimal, decimal]
  split
  · next zero =>
    cases x
    cases zero
    rfl
  · next nonzero =>
    have reads : Decimal.Reads .double x.magnitude (Decimal.shortest .double tie x.magnitude) :=
      Decimal.shortest_reads (by decide) (by decide +kernel) (of_decide_eq_true finite) nonzero
    rw [reads]

end Binary

/-- The decimal has more digits than one, or it is shown without an exponent. -/
def Decimal.HasPoint (d : Decimal) : Prop := 10 ≤ d.digits ∨ (-5 ≤ d.exponent ∧ d.exponent ≤ 15)

instance (d : Decimal) : Decidable d.HasPoint := inferInstanceAs (Decidable (_ ∨ _))

namespace Json.Number

def Valid : Number → Prop
  | .int i => Binary.IsWord i
  | .double x => x.isFinite = true

instance (n : Number) : Decidable n.Valid :=
  match n with
  | .int i => inferInstanceAs (Decidable (Binary.IsWord i))
  | .double x => inferInstanceAs (Decidable (x.isFinite = true))

def Readable : Number → Prop
  | .int i => i < twoTo 63
  | .double x => (x.decimal .toEven).HasPoint

instance (n : Number) : Decidable n.Readable :=
  match n with
  | .int i => inferInstanceAs (Decidable (i < twoTo 63))
  | .double x => inferInstanceAs (Decidable (x.decimal .toEven).HasPoint)

section Double
variable {x : Double}

theorem toList_double (x : Double) : (Number.double x).text.toList =
    Literal.signed x.negative ((x.decimal .toEven).text doubleLayout).toList :=
  x.toList_text doubleLayout

theorem decimal_spelled (finite : x.isFinite = true) (point : (x.decimal .toEven).HasPoint) :
    ∃ d, Literal.Spells ((x.decimal .toEven).text doubleLayout).toList d ∧
      Binary.ofDecimal .double x.negative d.digits d.exponent = x := by
  have value := Binary.ofDecimal_decimal .toEven finite
  generalize x.decimal .toEven = d at *
  have point : 10 ≤ d.digits ∨ doubleLayout.positional d.exponent = true :=
    point.imp_right decide_eq_true
  rcases Decimal.text_spells rfl point with spells | ⟨whole, positional, spells⟩
  · exact ⟨d, spells, value⟩
  · -- The zero behind the point is a digit more, of the same value.
    have few : d.exponent.toNat ≤ twoTo Format.double.exponentBits := by
      have bound : -5 ≤ d.place ∧ d.place ≤ 15 := of_decide_eq_true positional
      have wide : 15 ≤ twoTo Format.double.exponentBits := by decide
      have := d.exponent_le_place
      omega
    have tenth := Format.double.ofDecimal_tenth d.digits few
    rw [Int.toNat_of_nonneg whole] at tenth
    refine ⟨_, spells, ?_⟩
    rw [Binary.ofDecimal, tenth]
    exact value

theorem double_read (finite : x.isFinite = true) (point : (x.decimal .toEven).HasPoint) :
    Number.ofText? (Number.double x).text.toList = some (.double x) := by
  obtain ⟨d, spells, value⟩ := decimal_spelled finite point
  have contained : (Number.double x).text.toList.contains '.' = true := by
    rw [toList_double, List.contains_iff_mem, Literal.mem_signed]
    exact .inr spells.point
  rw [Number.ofText?, if_pos contained, toList_double, Literal.double?, spells.decimal?, value,
    Option.filter_some, if_pos finite, Option.map_some]

theorem double_unread (single : ¬ (x.decimal .toEven).HasPoint) :
    Number.ofText? (Number.double x).text.toList = none := by
  -- Without a point it is read as a whole number, and the letter of the exponent is no digit.
  have text := toList_double x
  generalize x.decimal .toEven = d at *
  obtain ⟨few, far⟩ := not_or.mp single
  rw [Decimal.single_text (Nat.lt_of_not_le few) (mt of_decide_eq_true far)] at text
  have pointless : (Number.double x).text.toList.contains '.' = false := by
    have digits (n : Nat) : '.' ∉ Decimal.digitChars n :=
      fun h => absurd (Decimal.isDigit_digitChars h) (by decide)
    rw [text, List.contains_eq_mem, decide_eq_false_iff_not, Literal.mem_signed]
    split <;> simp [digits]
  rw [Number.ofText?, pointless, text, Literal.int?_eq_none (c := 'e')
    (Literal.sign_signed _ (Decimal.head_digitChars _ _)) (by simp) rfl]
  rfl

end Double

theorem toList_int (i : Int) :
    (Number.int i).text.toList = Literal.signed (decide (i < 0)) (Decimal.digitChars i.natAbs) := by
  rw [Number.text, Int.toString_eq_repr]
  cases i with
  | ofNat n =>
    have positive : ¬ Int.ofNat n < 0 := by simp
    rw [Literal.signed, decide_eq_false positive]
    exact Nat.toList_repr
  | negSucc n =>
    rw [Int.repr, Literal.signed, decide_eq_true (Int.negSucc_lt_zero n)]
    simp [Decimal.digitChars, Nat.toList_repr]

theorem int_read (i : Int) : Number.ofText? (Number.int i).text.toList =
    if Literal.isWord i then some (.int i) else none := by
  have pointless : (Number.int i).text.toList.contains '.' = false := by
    rw [toList_int, List.contains_eq_mem, decide_eq_false_iff_not, Literal.mem_signed, not_or]
    exact ⟨by simp, fun h => absurd (Decimal.isDigit_digitChars h) (by decide)⟩
  have head := Decimal.head_digitChars i.natAbs []
  rw [List.append_nil] at head
  rw [Number.ofText?, pointless, toList_int, if_neg Bool.false_ne_true,
    Literal.int?_digitChars (Literal.sign_signed _ head), Option.filter_some]
  split <;> rfl

variable {n : Number}

/-- The text of a number is read as the number or not at all. -/
theorem ofText?_text (valid : n.Valid) :
    Number.ofText? n.text.toList = if n.Readable then some n else none := by
  cases n with
  | int i =>
    have word : Literal.isWord i = true ↔ (Number.int i).Readable := by
      rw [Literal.isWord, Bool.and_eq_true, decide_eq_true_eq, decide_eq_true_eq]
      exact and_iff_right valid.1
    rw [int_read]
    exact if_congr word rfl rfl
  | double x =>
    split
    · next point => exact double_read valid point
    · next single => exact double_unread single

theorem text_ne_nil (n : Number) : n.text.toList ≠ [] := by
  have signed {negative : Bool} {cs : List Char} (h : cs ≠ []) :
      Literal.signed negative cs ≠ [] := by
    cases negative <;> simp [Literal.signed, h]
  cases n with
  | int i =>
    rw [toList_int]
    exact signed (Decimal.digitChars_ne_nil _)
  | double x =>
    rw [toList_double]
    exact signed (Decimal.toList_text_ne_nil _ _)

theorem text_numerals (n : Number) : ∀ c ∈ n.text.toList, c ∈ Decimal.numerals := by
  have signed {negative : Bool} {cs : List Char} (h : ∀ c ∈ cs, c ∈ Decimal.numerals) :
      ∀ c ∈ Literal.signed negative cs, c ∈ Decimal.numerals := by
    intro c hc
    rcases Literal.mem_signed.mp hc with ⟨-, rfl⟩ | hc
    · decide
    · exact h c hc
  cases n with
  | int i =>
    rw [toList_int]
    exact signed fun c hc => Decimal.mem_numerals (Decimal.isDigit_digitChars hc)
  | double x =>
    rw [toList_double]
    exact signed (Decimal.text_numerals (by simp [doubleLayout, Decimal.numerals]) _)

end Json.Number

section Plain
variable {s : String} (numerals : ∀ c ∈ s.toList, c ∈ Decimal.numerals)

theorem dropWhile_numerals {p : Char → Bool} (none : Decimal.numerals.any p = false)
    {cs : List Char} (numerals : ∀ c ∈ cs, c ∈ Decimal.numerals) : cs.dropWhile p = cs := by
  cases cs with
  | nil => rfl
  | cons c cs =>
    have first := List.any_eq_false.mp none c (numerals c List.mem_cons_self)
    rw [List.dropWhile_cons_of_neg first]

include numerals

theorem trim_numerals : Text.trim s.toList = s.toList := by
  have blank : Decimal.numerals.any Text.isBlank = false := by decide
  rw [Text.trim, Text.trimFront, Text.trimFront, dropWhile_numerals blank numerals,
    dropWhile_numerals blank (by simpa using numerals), List.reverse_reverse]

theorem bare_numerals : Extraction.bare s = s := by
  have quote : Decimal.numerals.any (· == '"') = false := by decide
  simp only [Extraction.bare]
  rw [trim_numerals numerals, dropWhile_numerals quote numerals,
    dropWhile_numerals quote (by simpa using numerals), List.reverse_reverse, String.ofList_toList]

/-- What numbers are written with is no word, in whatever case. -/
theorem toLower_ne {word : String} {c : Char} (letter : c ∈ word.toList)
    (other : c ∉ Decimal.numerals) : s.toLower ≠ word := by
  have lower : Decimal.numerals.map Char.toLower = Decimal.numerals := by decide
  rintro rfl
  have lowered : s.toLower.toList = s.toList.map Char.toLower := String.toList_map
  rw [lowered] at letter
  obtain ⟨d, hd, rfl⟩ := List.mem_map.mp letter
  exact other (lower ▸ List.mem_map_of_mem (numerals d hd))

theorem free_numerals : Free [.word s] := by
  refine ⟨⟨s, [], rfl⟩, fun key => ?_⟩
  cases key with
  | and => exact absurd (numerals 'A' (by decide)) (by decide)
  | or => exact absurd (numerals 'O' (by decide)) (by decide)
  | contains => exact absurd (numerals 'C' (by decide)) (by decide)
  | present spelt => exact toLower_ne numerals (c := 'x') (by decide) (by decide) spelt
  | absent spelt => exact toLower_ne numerals (c := 'x') (by decide) (by decide) spelt

/-- The text is one bare word. -/
theorem lexes_numerals (nonempty : s.toList ≠ []) : Condition.Lexes s.toList [.word s] := by
  have plain : Decimal.numerals.all Condition.isPlain = true := by decide
  obtain ⟨c, word, whole⟩ := List.exists_cons_of_ne_nil nonempty
  rw [whole] at numerals
  have inside := fun d hd => List.all_eq_true.mp plain d (numerals d hd)
  have lexes := Condition.lexes_nil.word inside rfl
  rwa [List.append_nil, ← whole, String.ofList_toList] at lexes

theorem spelt_numerals : (Operand.bare s).Spelt [.word s] [] := by
  have words : Bare [.word s] [s] [] :=
    .last (free_numerals numerals) fun ⟨⟨_, _, h⟩, _⟩ => nomatch h
  exact .bare words

end Plain

namespace Json.Number
variable {n : Number}

def reread (n : Number) : Value := if n.Readable then .number n else .string n.text

theorem coerce_text (valid : n.Valid) : Literal.coerce n.text = n.reread := by
  have numerals := n.text_numerals
  simp only [Literal.coerce]
  rw [trim_numerals numerals, String.ofList_toList, ofText?_text valid, reread,
    if_neg (toLower_ne numerals (c := 't') (by decide) (by decide)),
    if_neg (toLower_ne numerals (c := 'f') (by decide) (by decide))]
  by_cases readable : n.Readable
  · rw [if_pos readable, if_pos readable]
  · rw [if_neg readable, if_neg readable]

theorem coerce?_text (valid : n.Valid) :
    Extraction.coerce? "number" n.text = some n.reread := by
  have numerals := n.text_numerals
  have nonempty : n.text ≠ "" := fun empty => n.text_ne_nil (by rw [empty]; rfl)
  have word : n.text.toLower ≠ "null" :=
    toLower_ne numerals (c := 'n') (by decide) (by decide)
  rw [Extraction.coerce?, bare_numerals numerals, if_neg (not_or.mpr ⟨nonempty, word⟩), if_pos rfl,
    ofText?_text valid, reread]
  by_cases readable : n.Readable
  · rw [if_pos readable, if_pos readable]
  · rw [if_neg readable, if_neg readable]

end Json.Number

theorem Condition.sameValue_reread {n : Number} :
    sameValue (.number n) n.reread = true ↔ n.Readable := by
  rw [Number.reread]
  split
  · next readable => exact iff_of_true (by simp [sameValue, Binary.equal]) readable
  · next unreadable =>
    have apart : sameValue (.number n) (.string n.text) = false := rfl
    exact iff_of_false (apart ▸ Bool.false_ne_true) unreadable

/-- The text that a number is shown as is read as that very number, in a condition and in a reply,
and an equation with the text holds of the number, if the number is readable; otherwise the text is
read as a string, and no such equation holds. -/
theorem number_reread (n : Number) (valid : n.Valid) :
    let shown := (Value.number n).display
    (n.Readable →
      Literal.coerce shown = .number n ∧ Extraction.coerce? "number" shown = some (.number n)) ∧
    (¬ n.Readable →
      Literal.coerce shown = .string shown ∧
        Extraction.coerce? "number" shown = some (.string shown)) ∧
    ∀ (vars : Variables) (text name : String), Condition.Names text name →
      vars.get? name = some (.number n) →
      (vars.satisfies ("\x7b\x7b" ++ text ++ "\x7d\x7d " ++ "==" ++ " " ++ shown) = true ↔
        n.Readable) := by
  intro shown
  have literal : Literal.coerce shown = n.reread := Number.coerce_text valid
  have extracted : Extraction.coerce? "number" shown = some n.reread := Number.coerce?_text valid
  refine ⟨fun readable => ?_, fun unreadable => ?_, fun vars text name names stored => ?_⟩
  · rw [literal, extracted, Number.reread, if_pos readable]
    exact ⟨rfl, rfl⟩
  · rw [literal, extracted, Number.reread, if_neg unreadable]
    exact ⟨rfl, rfl⟩
  · have numerals : ∀ c ∈ shown.toList, c ∈ Decimal.numerals := n.text_numerals
    have reads : Condition.ofText
        ("\x7b\x7b" ++ text ++ "\x7d\x7d " ++ "==" ++ " " ++ shown) =
          .ok (.compare (.variable name) .eq (.bare shown)) :=
      Condition.reads_comparison names (by decide) (lexes_numerals numerals n.text_ne_nil)
        (spelt_numerals numerals)
    rw [vars.satisfies_eq reads, Condition.eval, Operand.value, stored, Operand.value, literal]
    exact Condition.sameValue_reread

/-- The least normal double, the least of all, minus zero, ten to the sixteenth, and the whole
numbers at both ends of what is read. -/
def margins : Variables :=
  .ofInitial [("normal", .number (.double ⟨false, twoTo 52⟩)),
    ("least", .number (.double ⟨false, 1⟩)), ("zero", .number (.double ⟨true, 0⟩)),
    ("round", .number (.double ⟨false, 0x4341c37937e08000⟩)), ("lowest", .int (-twoTo 63)),
    ("above", .int (twoTo 63))]

theorem margins_reread :
    (Number.Valid (.double ⟨false, twoTo 52⟩) ∧ Number.Readable (.double ⟨false, twoTo 52⟩) ∧
      Condition.Names " normal " "normal" ∧
      margins.get? "normal" = some (.number (.double ⟨false, twoTo 52⟩))) ∧
    (Literal.coerce "2.2250738585072014e-308" = .number (.double ⟨false, twoTo 52⟩) ∧
      margins.satisfies "\x7b\x7b normal \x7d\x7d == 2.2250738585072014e-308" = true) ∧
    (Number.Valid (.double ⟨true, 0⟩) ∧ Number.Readable (.double ⟨true, 0⟩)) ∧
    Extraction.coerce? "number" "-0.0" = some (.number (.double ⟨true, 0⟩)) ∧
    (Number.Valid (.int (-twoTo 63)) ∧ Number.Readable (.int (-twoTo 63))) ∧
    Literal.coerce "-9223372036854775808" = .int (-twoTo 63) ∧
    (Number.Valid (.double ⟨false, 1⟩) ∧ ¬ Number.Readable (.double ⟨false, 1⟩)) ∧
    Extraction.coerce? "number" "5e-324" = some (.string "5e-324") := by
  have names : Condition.Names " normal " "normal" := Condition.names_iff.mpr (by decide +kernel)
  have normal := number_reread (.double ⟨false, twoTo 52⟩) (by decide +kernel)
  have shown : (Value.number (.double ⟨false, twoTo 52⟩)).display = "2.2250738585072014e-308" := by
    decide +kernel
  rw [shown] at normal
  have readable : Number.Readable (.double ⟨false, twoTo 52⟩) := by decide +kernel
  have zero := number_reread (.double ⟨true, 0⟩) (by decide +kernel)
  have lowest := number_reread (.int (-twoTo 63)) (by decide +kernel)
  have least := number_reread (.double ⟨false, 1⟩) (by decide +kernel)
  have single : (Value.number (.double ⟨false, 1⟩)).display = "5e-324" := by decide +kernel
  rw [single] at least
  refine ⟨⟨by decide +kernel, readable, names, rfl⟩, ⟨(normal.1 readable).1, ?_⟩,
    ⟨by decide +kernel, by decide +kernel⟩, (zero.1 (by decide +kernel)).2,
    ⟨by decide +kernel, by decide +kernel⟩, (lowest.1 (by decide +kernel)).1,
    ⟨by decide +kernel, by decide +kernel⟩, (least.2.1 (by decide +kernel)).2⟩
  exact (normal.2.2 margins " normal " "normal" names rfl).mpr readable

/-- Ten to the sixteenth is shown without a point, and is no whole number either. -/
theorem round_unread :
    (Number.Valid (.double ⟨false, 0x4341c37937e08000⟩) ∧
      margins.get? "round" = some (.number (.double ⟨false, 0x4341c37937e08000⟩)) ∧
      (Value.number (.double ⟨false, 0x4341c37937e08000⟩)).display = "1e+16") ∧
    (∀ n, Literal.coerce "1e+16" ≠ .number n ∧
      Extraction.coerce? "number" "1e+16" ≠ some (.number n)) ∧
    margins.satisfies "\x7b\x7bround\x7d\x7d == 1e+16" = false ∧
    (Number.Valid (.int (twoTo 63)) ∧
      (Value.int (twoTo 63)).display = "9223372036854775808") ∧
    ∀ n, Literal.coerce "9223372036854775808" ≠ .number n ∧
      Extraction.coerce? "number" "9223372036854775808" ≠ some (.number n) := by
  have unread {m : Number} {shown : String} (valid : m.Valid) (unreadable : ¬ m.Readable)
      (text : m.text = shown) (n : Number) :
      Literal.coerce shown ≠ .number n ∧ Extraction.coerce? "number" shown ≠ some (.number n) := by
    rw [← text, Number.coerce_text valid, Number.coerce?_text valid, Number.reread,
      if_neg unreadable]
    exact ⟨nofun, nofun⟩
  have round : (Number.double ⟨false, 0x4341c37937e08000⟩).text = "1e+16" := by decide +kernel
  have above : (Number.int (twoTo 63)).text = "9223372036854775808" := by decide +kernel
  exact ⟨⟨by decide +kernel, rfl, round⟩, unread (by decide +kernel) (by decide +kernel) round,
    by decide +kernel, ⟨by decide +kernel, above⟩,
    unread (by decide +kernel) (by decide +kernel) above⟩

end Dialogue
