import Dialogue.Json.Numeral
import Dialogue.Json.Text
/-!
The text of numbers and what it is made of. Main statement: a text with a point is read as the
decimal that its digits and its exponent spell.
-/
namespace Dialogue

namespace Literal

theorem ofDigits_zero (cs : List Char) : ofDigits ('0' :: cs) = ofDigits cs := rfl

theorem ofDigits_zeros (cs : List Char) (n : Nat) :
    ofDigits (cs ++ List.replicate n '0') = ofDigits cs * tenTo n := by
  induction n with
  | zero => simp [tenTo]
  | succ n ih =>
    rw [List.replicate_succ', ← List.append_assoc, ofDigits, List.foldl_append]
    change 10 * ofDigits (cs ++ List.replicate n '0') + 0 = _
    rw [ih]
    exact (Nat.mul_left_comm 10 _ _).trans (congrArg _ (Nat.mul_comm 10 (tenTo n)))

theorem ofDigits_behind_zeros (n : Nat) (cs : List Char) :
    ofDigits (List.replicate n '0' ++ cs) = ofDigits cs := by
  induction n with
  | zero => rfl
  | succ n ih => exact ih

theorem ofDigits_digitChars (n : Nat) : ofDigits (Decimal.digitChars n) = n :=
  Nat.ofDigitChars_toDigits (by decide) (by decide)

end Literal

theorem Decimal.isDigit_digitChars {n : Nat} {c : Char} (h : c ∈ digitChars n) : c.isDigit = true :=
  Nat.isDigit_of_mem_toDigits (by decide) (by decide) h

theorem Decimal.digitChars_ne_nil (n : Nat) : digitChars n ≠ [] := Nat.toDigits_ne_nil

theorem Decimal.head_digitChars (n : Nat) (rest : List Char) :
    ∃ c ∈ (digitChars n ++ rest).head?, c.isDigit = true := by
  obtain ⟨c, more, whole⟩ := List.exists_cons_of_ne_nil (digitChars_ne_nil n)
  exact ⟨c, by simp [whole], isDigit_digitChars (n := n) (by simp [whole])⟩

theorem Decimal.length_digitChars (n : Nat) : (digitChars n).length ≤ 1 ↔ n < 10 :=
  Nat.length_toDigits_le_iff (by decide) (by decide)

namespace Literal

def signed (negative : Bool) (cs : List Char) : List Char := if negative then '-' :: cs else cs

theorem mem_signed {negative : Bool} {cs : List Char} {c : Char} :
    c ∈ signed negative cs ↔ (negative = true ∧ c = '-') ∨ c ∈ cs := by
  cases negative <;> simp [signed]

theorem sign_signed (negative : Bool) {cs : List Char}
    (digit : ∃ c ∈ cs.head?, c.isDigit = true) : sign (signed negative cs) = (negative, cs) := by
  cases negative with
  | true => rfl
  | false =>
    obtain ⟨c, hc, digit⟩ := digit
    cases cs with
    | nil => cases hc
    | cons d rest =>
      obtain rfl := Option.some.inj hc
      have minus : d ≠ '-' := by rintro rfl; cases digit
      have plus : d ≠ '+' := by rintro rfl; cases digit
      simp [sign, signed, minus, plus]

def Spells (cs : List Char) (d : Decimal) : Prop :=
  ∃ before behind tail exponent, cs = before ++ '.' :: (behind ++ tail) ∧ before ≠ [] ∧
    (∀ c ∈ before ++ behind, c.isDigit = true) ∧ exponent? tail = some exponent ∧
    d.digits = ofDigits (before ++ behind) ∧ d.exponent = exponent - behind.length

theorem digits_stop {cs : List Char} (rest : List Char) (digits : ∀ c ∈ cs, c.isDigit = true)
    (stop : ∀ c ∈ rest.head?, c.isDigit = false) :
    (cs ++ rest).takeWhile Char.isDigit = cs ∧ (cs ++ rest).dropWhile Char.isDigit = rest := by
  rw [List.takeWhile_append_of_pos digits, List.dropWhile_append_of_pos digits]
  cases rest with
  | nil => simp
  | cons c rest => simp [stop c rfl]

theorem Spells.point {cs : List Char} {d : Decimal} (h : Spells cs d) : '.' ∈ cs := by
  obtain ⟨before, behind, tail, exponent, rfl, -⟩ := h
  simp

/-- Text without an exponent. -/
theorem Spells.positional (before behind : List Char) {d : Decimal} (nonempty : before ≠ [])
    (digits : ∀ c ∈ before ++ behind, c.isDigit = true)
    (hdigits : d.digits = ofDigits (before ++ behind)) (hplaces : d.exponent = -behind.length) :
    Spells (before ++ '.' :: behind) d :=
  ⟨before, behind, [], 0, by rw [List.append_nil], nonempty, digits, rfl, hdigits, by omega⟩

theorem Spells.decimal? {cs : List Char} {d : Decimal} (h : Spells cs d) (negative : Bool) :
    decimal? (signed negative cs) =
      some (Binary.ofDecimal .double negative d.digits d.exponent) := by
  obtain ⟨before, behind, tail, exponent, hcs, nonempty, digits, hexponent, hdigits, hplaces⟩ := h
  have unsigned : ∃ c ∈ cs.head?, c.isDigit = true := by
    obtain ⟨c, more, rfl⟩ := List.exists_cons_of_ne_nil nonempty
    exact ⟨c, by simp [hcs], digits c (by simp)⟩
  have stop : ∀ d ∈ tail.head?, d.isDigit = false := by
    intro d hd
    cases tail with
    | nil => cases hd
    | cons e rest =>
      obtain rfl : e = d := Option.some.inj hd
      rw [exponent?] at hexponent
      split at hexponent
      · next letter => rcases letter with rfl | rfl <;> rfl
      · cases hexponent
  rw [List.forall_mem_append] at digits
  obtain ⟨take_before, drop_before⟩ := digits_stop ('.' :: (behind ++ tail)) digits.1
    (by rintro _ ⟨⟩; rfl)
  obtain ⟨take_behind, drop_behind⟩ := digits_stop tail digits.2 stop
  rw [← hcs] at take_before drop_before
  simp [Literal.decimal?, sign_signed negative unsigned, take_before, drop_before, take_behind,
    drop_behind, hexponent, nonempty, hdigits, hplaces]

theorem int?_eq_none {cs ds : List Char} {negative : Bool} (h : sign cs = (negative, ds)) {c : Char}
    (mem : c ∈ ds) (other : c.isDigit = false) : int? cs = none := by
  have broken : ds.all Char.isDigit = false := List.all_eq_false.mpr ⟨c, mem, by simp [other]⟩
  simp [int?, h, broken]

theorem int?_digitChars {cs : List Char} {i : Int}
    (h : sign cs = (decide (i < 0), Decimal.digitChars i.natAbs)) : int? cs = some i := by
  have nonempty := Decimal.digitChars_ne_nil i.natAbs
  have digits : (Decimal.digitChars i.natAbs).all Char.isDigit = true :=
    List.all_eq_true.mpr fun _ h => Decimal.isDigit_digitChars h
  have value : (if i < 0 then -(i.natAbs : Int) else i.natAbs) = i := by omega
  simp only [int?, h, List.isEmpty_eq_false_iff.mpr nonempty, digits, ofDigits_digitChars,
    decide_eq_true_eq, value]
  rfl

end Literal

namespace Decimal

def numerals : List Char :=
  ['0', '1', '2', '3', '4', '5', '6', '7', '8', '9', '.', 'e', '+', '-']

theorem mem_numerals {c : Char} (digit : c.isDigit = true) : c ∈ numerals := by
  have range : 48 ≤ c.toNat ∧ c.toNat < 58 := by
    simp only [Char.isDigit, Bool.and_eq_true, decide_eq_true_eq, ge_iff_le, UInt32.le_iff_toNat_le]
      at digit
    exact ⟨digit.1, Nat.lt_succ_of_le digit.2⟩
  have all : ∀ n < 58, 48 ≤ n → Char.ofNat n ∈ numerals := by decide
  rw [← Char.ofNat_toNat c]
  exact all _ range.2 range.1

def place (d : Decimal) : Int := d.exponent + (digitChars d.digits).length - 1

theorem exponent_le_place (d : Decimal) : d.exponent ≤ d.place := by
  have nonempty := List.length_pos_iff.mpr (digitChars_ne_nil d.digits)
  rw [place]
  omega

theorem place_single {d : Decimal} (single : d.digits < 10) : d.place = d.exponent := by
  have one := (length_digitChars d.digits).mpr single
  have nonempty := List.length_pos_iff.mpr (digitChars_ne_nil d.digits)
  rw [place]
  omega

theorem toList_text (layout : Layout) (d : Decimal) :
    (text layout d).toList =
      if layout.positional d.place then
        if 0 ≤ d.exponent then
          digitChars d.digits ++ List.replicate d.exponent.toNat '0' ++ layout.wholeSuffix.toList
        else if 0 ≤ d.place then
          (digitChars d.digits).take (d.place + 1).toNat ++ ['.'] ++
            (digitChars d.digits).drop (d.place + 1).toNat
        else ['0', '.'] ++ List.replicate (-d.place - 1).toNat '0' ++ digitChars d.digits
      else
        (digitChars d.digits).take 1 ++
          (if (digitChars d.digits).length = 1 then [] else '.' :: (digitChars d.digits).drop 1) ++
          ['e', if d.place < 0 then '-' else '+'] ++ digitChars d.place.natAbs :=
  String.toList_ofList

/-- Text is made of the characters of numbers if what it puts behind whole numbers is. -/
theorem text_numerals {layout : Layout} (suffix : ∀ c ∈ layout.wholeSuffix.toList, c ∈ numerals)
    (d : Decimal) : ∀ c ∈ (text layout d).toList, c ∈ numerals := by
  have digits (n : Nat) : ∀ c ∈ digitChars n, c ∈ numerals :=
    fun c hc => mem_numerals (isDigit_digitChars hc)
  have zeros (n : Nat) : ∀ c ∈ List.replicate n '0', c ∈ numerals :=
    fun c hc => List.eq_of_mem_replicate hc ▸ by decide
  have front (n : Nat) : ∀ c ∈ (digitChars d.digits).take n, c ∈ numerals :=
    fun c hc => digits _ c (List.mem_of_mem_take hc)
  have back (n : Nat) : ∀ c ∈ (digitChars d.digits).drop n, c ∈ numerals :=
    fun c hc => digits _ c (List.mem_of_mem_drop hc)
  have fraction : ∀ c ∈ if (digitChars d.digits).length = 1 then [] else
      '.' :: (digitChars d.digits).drop 1, c ∈ numerals := by
    split
    · nofun
    · exact List.forall_mem_cons.mpr ⟨by decide, back 1⟩
  have letter : ∀ c ∈ ['e', if d.place < 0 then '-' else '+'], c ∈ numerals := by
    split <;> simp [numerals]
  rw [toList_text]
  split
  · split
    · rw [List.forall_mem_append, List.forall_mem_append]
      exact ⟨⟨digits _, zeros _⟩, suffix⟩
    · split
      · rw [List.forall_mem_append, List.forall_mem_append]
        exact ⟨⟨front _, by simp [numerals]⟩, back _⟩
      · rw [List.forall_mem_append, List.forall_mem_append]
        exact ⟨⟨by simp [numerals], zeros _⟩, digits _⟩
  · rw [List.forall_mem_append, List.forall_mem_append, List.forall_mem_append]
    exact ⟨⟨⟨front _, fraction⟩, letter⟩, digits _⟩

theorem toList_text_ne_nil (layout : Layout) (d : Decimal) : (text layout d).toList ≠ [] := by
  rw [toList_text]
  split
  · split
    · simp [digitChars_ne_nil]
    · split <;> simp
  · simp

open Literal (Spells)

section Spelling
variable {layout : Layout} {d : Decimal}

theorem digits_spelled (d : Decimal) :
    0 < (digitChars d.digits).length ∧ (∀ c ∈ digitChars d.digits, c.isDigit = true) ∧
      Literal.ofDigits (digitChars d.digits) = d.digits :=
  ⟨List.length_pos_iff.mpr (digitChars_ne_nil _), fun _ h => isDigit_digitChars h,
    Literal.ofDigits_digitChars _⟩

theorem whole_spells (positional : layout.positional d.place = true)
    (suffix : layout.wholeSuffix = ".0") (whole : 0 ≤ d.exponent) :
    Spells (text layout d).toList ⟨d.digits * tenTo (d.exponent.toNat + 1), -1⟩ := by
  obtain ⟨nonempty, digits, value⟩ := digits_spelled d
  rw [toList_text, if_pos positional, if_pos whole, suffix]
  refine Spells.positional (digitChars d.digits ++ List.replicate d.exponent.toNat '0') ['0']
    (by simp [digitChars_ne_nil]) ?_ ?_ rfl
  · rw [List.append_assoc, List.forall_mem_append, List.forall_mem_append]
    exact ⟨digits, fun c hc => List.eq_of_mem_replicate hc ▸ rfl, by simp⟩
  · rw [List.append_assoc, ← List.replicate_succ', Literal.ofDigits_zeros, value]

theorem inside_spells (positional : layout.positional d.place = true) (broken : d.exponent < 0)
    (inside : 0 ≤ d.place) : Spells (text layout d).toList d := by
  obtain ⟨nonempty, digits, value⟩ := digits_spelled d
  rw [toList_text, if_pos positional, if_neg (by omega), if_pos inside, List.append_assoc,
    List.singleton_append]
  refine Spells.positional _ _ (List.ne_nil_of_length_pos ?_) ?_ ?_ ?_
  · rw [List.length_take]
    omega
  · rwa [List.take_append_drop]
  · rw [List.take_append_drop, value]
  · rw [List.length_drop]
    rw [place] at *
    omega

theorem outside_spells (positional : layout.positional d.place = true) (outside : d.place < 0) :
    Spells (text layout d).toList d := by
  obtain ⟨nonempty, digits, value⟩ := digits_spelled d
  have broken : d.exponent < 0 := by
    rw [place] at outside
    omega
  rw [toList_text, if_pos positional, if_neg (by omega), if_neg (by omega), List.append_assoc]
  refine Spells.positional ['0'] (List.replicate (-d.place - 1).toNat '0' ++ digitChars d.digits)
    nofun ?_ ?_ ?_
  · rw [List.forall_mem_append, List.forall_mem_append]
    exact ⟨by simp, fun c hc => List.eq_of_mem_replicate hc ▸ rfl, digits⟩
  · rw [List.singleton_append, Literal.ofDigits_zero, Literal.ofDigits_behind_zeros, value]
  · rw [List.length_append, List.length_replicate]
    rw [place] at *
    omega

theorem exponent?_chars (place : Int) :
    Literal.exponent? ('e' :: (if place < 0 then '-' else '+') :: digitChars place.natAbs) =
      some place := by
  have sign : Literal.sign ((if place < 0 then '-' else '+') :: digitChars place.natAbs) =
      (decide (place < 0), digitChars place.natAbs) := by
    by_cases below : place < 0 <;> simp [below, Literal.sign]
  rw [Literal.exponent?, if_pos (.inl rfl), Literal.int?_digitChars sign]

theorem scientific_spells (scientific : ¬ layout.positional d.place = true)
    (more : 10 ≤ d.digits) : Spells (text layout d).toList d := by
  obtain ⟨nonempty, digits, value⟩ := digits_spelled d
  have long : ¬ (digitChars d.digits).length ≤ 1 :=
    fun short => absurd ((length_digitChars _).mp short) (by omega)
  rw [toList_text, if_neg scientific, if_neg (by omega), List.append_assoc, List.append_assoc]
  refine ⟨(digitChars d.digits).take 1, (digitChars d.digits).drop 1, _, d.place, rfl,
    List.ne_nil_of_length_pos ?_, ?_, exponent?_chars d.place, ?_, ?_⟩
  · rw [List.length_take]
    omega
  · rwa [List.take_append_drop]
  · rw [List.take_append_drop, value]
  · rw [List.length_drop, place]
    omega

/-- With more digits than one, or with no exponent, the text has a point and spells the decimal;
a whole number is spelled with a zero more. -/
theorem text_spells (suffix : layout.wholeSuffix = ".0")
    (point : 10 ≤ d.digits ∨ layout.positional d.exponent = true) :
    Spells (text layout d).toList d ∨ 0 ≤ d.exponent ∧ layout.positional d.place = true ∧
      Spells (text layout d).toList ⟨d.digits * tenTo (d.exponent.toNat + 1), -1⟩ := by
  by_cases positional : layout.positional d.place = true
  · by_cases whole : 0 ≤ d.exponent
    · exact .inr ⟨whole, positional, whole_spells positional suffix whole⟩
    · by_cases inside : 0 ≤ d.place
      · exact .inl (inside_spells positional (by omega) inside)
      · exact .inl (outside_spells positional (by omega))
  · -- The place of a single digit is the exponent.
    refine .inl (scientific_spells positional (Nat.le_of_not_lt fun single => ?_))
    rw [place_single single] at positional
    exact positional (point.resolve_left (Nat.not_le.mpr single))

/-- A single digit with an exponent. -/
theorem single_text (single : d.digits < 10) (scientific : ¬ layout.positional d.exponent = true) :
    (text layout d).toList = digitChars d.digits ++
      'e' :: (if d.exponent < 0 then '-' else '+') :: digitChars d.exponent.natAbs := by
  have one : (digitChars d.digits).length = 1 :=
    Nat.le_antisymm ((length_digitChars _).mpr single) (digits_spelled d).1
  rw [toList_text, place_single single, if_neg scientific, if_pos one,
    List.take_of_length_le (Nat.le_of_eq one)]
  simp

end Spelling

end Decimal
end Dialogue
