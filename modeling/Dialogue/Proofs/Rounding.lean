import Dialogue.Proofs.Widening
import Mathlib.Order.Monotone.Basic
/-!
Whole numbers in a binary format. Patterns are ordered as what they stand for is, and of a whole
number the leading digits are kept, rounded half to even. Main statement: two whole numbers are
ordered in double precision as what is kept of them is.
-/
namespace Dialogue
namespace Format

/-- A significand may also be twice as long as the least one: the exponent takes it over. -/
theorem units_full {f : Format} {m : Nat} (low : f.hidden ≤ m) (high : m ≤ 2 * f.hidden)
    (e : Nat) : f.units (e * f.hidden + m) = m * twoTo e := by
  rcases Nat.lt_or_eq_of_le high with short | rfl
  · exact units_normal low short e
  · have carried : e * f.hidden + 2 * f.hidden = (e + 1) * f.hidden + f.hidden := by
      rw [Nat.two_mul, ← Nat.add_assoc, Nat.succ_mul]
    have least : f.hidden < 2 * f.hidden := by
      have := f.hidden_pos
      omega
    rw [carried, units_normal (Nat.le_refl _) least, twoTo_succ, Nat.mul_left_comm, Nat.mul_assoc]

/-- The next pattern stands for more. -/
theorem strictMono_units (f : Format) : StrictMono f.units := by
  refine strictMono_nat_of_lt_succ fun p => ?_
  obtain small | ⟨e, m, low, high, rfl⟩ := f.pattern_cases p
  · rw [units_small small]
    rcases Nat.lt_or_eq_of_le small with next | full
    · rw [units_small next]
      exact Nat.lt_succ_self p
    · have least := units_full (Nat.le_refl f.hidden) (by omega) 0
      rw [Nat.zero_mul, Nat.zero_add] at least
      rw [show p + 1 = f.hidden from full, least]
      exact Nat.lt_of_lt_of_eq small (Nat.mul_one _).symm
  · rw [Nat.add_assoc, units_normal low high, units_full (by omega) high]
    exact Nat.mul_lt_mul_of_pos_right (Nat.lt_succ_self m) (twoTo_pos e)

theorem roundEven_le (n d : Nat) : n / d ≤ roundEven n d := by
  simp only [roundEven]
  split <;> omega

theorem roundEven_le_succ (n d : Nat) : roundEven n d ≤ n / d + 1 := by
  simp only [roundEven]
  split <;> omega

theorem roundEven_mono {m n : Nat} (h : m ≤ n) (d : Nat) : roundEven m d ≤ roundEven n d := by
  rcases Nat.lt_or_eq_of_le (Nat.div_le_div_right (c := d) h) with less | same
  · exact (roundEven_le_succ m d).trans (less.trans_le (roundEven_le n d))
  · have rests : m % d ≤ n % d := by
      have hm := Nat.div_add_mod m d
      have hn := Nat.div_add_mod n d
      rw [same] at hm
      omega
    simp only [roundEven, same]
    split <;> split <;> omega

/-- Nothing is rounded by more than a half. -/
theorem roundEven_near (n : Nat) {d : Nat} (hd : 0 < d) :
    2 * (roundEven n d * d) ≤ 2 * n + d ∧ 2 * n ≤ 2 * (roundEven n d * d) + d := by
  have split := Nat.div_add_mod n d
  have rest := Nat.mod_lt n hd
  rw [Nat.mul_comm] at split
  simp only [roundEven]
  split
  · rw [Nat.succ_mul (n / d)]
    omega
  · omega

theorem roundEven_scaled (n d : Nat) {k : Nat} (hk : 0 < k) :
    roundEven (n * k) (d * k) = roundEven n d := by
  have rest : 2 * (n * k % (d * k)) = 2 * (n % d) * k := by
    rw [Nat.mul_mod_mul_right, Nat.mul_assoc]
  have above : 2 * (n % d) * k > d * k ↔ 2 * (n % d) > d := Nat.mul_lt_mul_right hk
  have half : 2 * (n % d) * k = d * k ↔ 2 * (n % d) = d := Nat.mul_left_inj hk.ne'
  simp only [roundEven, rest, Nat.mul_div_mul_right _ _ hk, above, half]

variable {f : Format}

def keep (f : Format) (n : Nat) : Nat := roundEven n (twoTo (f.exponent n)) * twoTo (f.exponent n)

theorem hidden_twice (digits : 0 < f.precision) : 2 * f.hidden = twoTo f.precision := by
  rw [hidden, ← twoTo_succ, Nat.sub_add_cancel digits]

/-- Without their exponent the leading digits are no more than the format has. -/
theorem leading_lt (digits : 0 < f.precision) (n : Nat) :
    n / twoTo (f.exponent n) < 2 * f.hidden := by
  have length : n.log2 + 1 ≤ f.precision + f.exponent n := by
    rw [exponent]
    omega
  rw [Nat.div_lt_iff_lt_mul (twoTo_pos (f.exponent n)), hidden_twice digits, ← twoTo_add]
  exact Nat.lt_log2_self.trans_le (Nat.pow_le_pow_right Nat.two_pos length)

/-- With an exponent, they are as many as the format has. -/
theorem le_leading (digits : 0 < f.precision) {n : Nat} (long : 0 < f.exponent n) :
    f.hidden ≤ n / twoTo (f.exponent n) := by
  have positive : n ≠ 0 := by
    rintro rfl
    rw [exponent_small digits f.hidden_pos] at long
    exact Nat.lt_irrefl 0 long
  have length : f.precision - 1 + f.exponent n ≤ n.log2 := by
    rw [exponent] at long ⊢
    omega
  rw [Nat.le_div_iff_mul_le (twoTo_pos _), hidden, ← twoTo_add]
  exact (Nat.pow_le_pow_right Nat.two_pos length).trans (Nat.log2_self_le positive)

/-- Rounding up may carry over. -/
theorem significand_le (digits : 0 < f.precision) (n : Nat) :
    roundEven n (twoTo (f.exponent n)) ≤ 2 * f.hidden :=
  (roundEven_le_succ n _).trans (leading_lt digits n)

theorem hidden_le_significand (digits : 0 < f.precision) {n : Nat} (long : 0 < f.exponent n) :
    f.hidden ≤ roundEven n (twoTo (f.exponent n)) :=
  (le_leading digits long).trans (roundEven_le n _)

/-- What the digits and the exponent are the pattern of. -/
theorem units_rounded (digits : 0 < f.precision) (n : Nat) :
    f.units (f.exponent n * f.hidden + roundEven n (twoTo (f.exponent n))) = f.keep n := by
  by_cases low : f.hidden ≤ roundEven n (twoTo (f.exponent n))
  · exact units_full low (significand_le digits n) _
  · have short : f.exponent n = 0 := by
      by_contra long
      exact low (hidden_le_significand digits (Nat.pos_of_ne_zero long))
    rw [short] at low
    rw [keep, short, Nat.zero_mul, Nat.zero_add, units_small (Nat.lt_of_not_le low)]
    exact (Nat.mul_one _).symm

/-- A number with no digits beyond the format's is kept whole. -/
theorem keep_multiple {n : Nat} (m : Nat) (h : n = m * twoTo (f.exponent n)) : f.keep n = n := by
  have whole := roundEven_exact m (twoTo_pos (f.exponent n))
  rw [← h] at whole
  rw [keep, whole, ← h]

theorem keep_short (digits : 0 < f.precision) {n : Nat} (short : n ≤ 2 * f.hidden) :
    f.keep n = n := by
  rcases Nat.lt_or_eq_of_le short with within | rfl
  · have exponent : f.exponent n = 0 := by
      by_cases zero : n = 0
      · rw [zero]
        exact exponent_small digits f.hidden_pos
      · rw [hidden_twice digits] at within
        exact Nat.sub_eq_zero_of_le (log2_lt zero within)
    refine keep_multiple n ?_
    rw [exponent]
    exact (Nat.mul_one n).symm
  · have least : f.hidden < 2 * f.hidden := by
      have := f.hidden_pos
      omega
    have exponent := exponent_normal digits (Nat.le_refl f.hidden) least 1
    have two : f.hidden * twoTo 1 = 2 * f.hidden := Nat.mul_comm f.hidden 2
    rw [two] at exponent
    refine keep_multiple f.hidden ?_
    rw [exponent, two]

theorem keep_near (n : Nat) :
    2 * f.keep n ≤ 2 * n + twoTo (f.exponent n) ∧ 2 * n ≤ 2 * f.keep n + twoTo (f.exponent n) :=
  roundEven_near n (twoTo_pos _)

theorem log2_mono {m n : Nat} (h : m ≤ n) : m.log2 ≤ n.log2 := by
  by_cases zero : m = 0
  · rw [zero, Nat.log2_zero]
    exact Nat.zero_le _
  · have positive : n ≠ 0 := by omega
    exact (Nat.le_log2 positive).mpr ((Nat.log2_self_le zero).trans h)

theorem exponent_mono (f : Format) {m n : Nat} (h : m ≤ n) : f.exponent m ≤ f.exponent n :=
  Nat.sub_le_sub_right (Nat.succ_le_succ (log2_mono h)) f.precision

theorem keep_mono (digits : 0 < f.precision) {m n : Nat} (h : m ≤ n) : f.keep m ≤ f.keep n := by
  rcases Nat.lt_or_eq_of_le (f.exponent_mono h) with less | same
  · calc f.keep m ≤ 2 * f.hidden * twoTo (f.exponent m) :=
          Nat.mul_le_mul_right _ (significand_le digits m)
      _ = f.hidden * twoTo (f.exponent m + 1) := by
          rw [twoTo_succ, Nat.mul_comm 2, Nat.mul_assoc]
      _ ≤ f.hidden * twoTo (f.exponent n) :=
          Nat.mul_le_mul_left _ (Nat.pow_le_pow_right Nat.two_pos less)
      _ ≤ f.keep n := Nat.mul_le_mul_right _ (hidden_le_significand digits (Nat.zero_lt_of_lt less))
  · rw [keep, keep, same]
    exact Nat.mul_le_mul_right _ (roundEven_mono h _)

/-- Counted in units of the format, a whole number keeps the same digits. -/
theorem keep_scaled (digits : 0 < f.precision) (deep : f.precision ≤ f.scale + 1) (n : Nat) :
    f.keep (n * twoTo f.scale) = f.keep n * twoTo f.scale := by
  by_cases zero : n = 0
  · rw [zero, Nat.zero_mul, keep_short digits (Nat.zero_le _), Nat.zero_mul]
  have length : (n * twoTo f.scale).log2 = n.log2 + f.scale := by
    apply log2_eq
    · rw [twoTo_add]
      exact Nat.mul_le_mul_right _ (Nat.log2_self_le zero)
    · rw [Nat.add_right_comm, twoTo_add]
      exact Nat.mul_lt_mul_of_pos_right Nat.lt_log2_self (twoTo_pos _)
  by_cases short : n.log2 + 1 ≤ f.precision
  · have within : n ≤ 2 * f.hidden := by
      rw [hidden_twice digits]
      exact Nat.le_of_lt ((Nat.log2_lt zero).mp short)
    -- The places that a short number leaves free are filled with units, and nothing is rounded.
    obtain ⟨fill, hfill⟩ : ∃ fill, f.scale = fill + f.exponent (n * twoTo f.scale) := by
      refine ⟨f.scale - f.exponent (n * twoTo f.scale), ?_⟩
      rw [exponent, length]
      omega
    have whole : n * twoTo f.scale = n * twoTo fill * twoTo (f.exponent (n * twoTo f.scale)) := by
      rw [Nat.mul_assoc, ← twoTo_add, ← hfill]
    rw [keep_short digits within]
    exact keep_multiple _ whole
  · have long : f.exponent (n * twoTo f.scale) = f.exponent n + f.scale := by
      rw [exponent, exponent, length]
      omega
    rw [keep, keep, long, twoTo_add, roundEven_scaled _ _ (twoTo_pos _), Nat.mul_assoc]

/-- A whole number that is not beyond the format stands for what is kept of it. -/
theorem units_nearest_whole (digits : 0 < f.precision) (deep : f.precision ≤ f.scale + 1) {n : Nat}
    (finite : f.exponent (n * twoTo f.scale) + 2 < twoTo f.exponentBits) :
    f.units (f.nearest n 1) = f.keep n * twoTo f.scale := by
  have nearest : f.nearest n 1 = min f.infinity (f.exponent (n * twoTo f.scale) * f.hidden +
      roundEven (n * twoTo f.scale) (twoTo (f.exponent (n * twoTo f.scale)))) := by
    simp only [Format.nearest, Nat.div_one, Nat.one_mul]
    rfl
  have below : f.exponent (n * twoTo f.scale) * f.hidden +
      roundEven (n * twoTo f.scale) (twoTo (f.exponent (n * twoTo f.scale))) ≤ f.infinity := by
    have high := significand_le digits (n * twoTo f.scale)
    have room : (f.exponent (n * twoTo f.scale) + 2) * f.hidden ≤ f.infinity :=
      Nat.mul_le_mul_right _ (Nat.le_sub_one_of_lt finite)
    rw [Nat.add_mul] at room
    omega
  rw [nearest, Nat.min_eq_right below, units_rounded digits, keep_scaled digits deep]

def kept (f : Format) (i : Int) : Int := if i < 0 then -f.keep i.natAbs else f.keep i.natAbs

theorem kept_short (digits : 0 < f.precision) {i : Int} (short : i.natAbs ≤ 2 * f.hidden) :
    f.kept i = i := by
  rw [kept, keep_short digits short]
  split <;> omega

theorem kept_near (i : Int) :
    2 * f.kept i ≤ 2 * i + twoTo (f.exponent i.natAbs) ∧
      2 * i ≤ 2 * f.kept i + twoTo (f.exponent i.natAbs) := by
  have near := f.keep_near i.natAbs
  rw [kept]
  split <;> omega

theorem kept_mono (digits : 0 < f.precision) {i j : Int} (h : i ≤ j) : f.kept i ≤ f.kept j := by
  rw [kept, kept]
  split <;> split
  · have := keep_mono digits (show j.natAbs ≤ i.natAbs by omega)
    omega
  · omega
  · omega
  · have := keep_mono digits (show i.natAbs ≤ j.natAbs by omega)
    omega

end Format

namespace Binary
variable {f : Format}

def value (x : Binary f) : Int :=
  if x.negative then -f.units x.magnitude else f.units x.magnitude

/-- Numbers are ordered by what they stand for. -/
theorem rank_le_iff {x y : Binary f} : x.rank ≤ y.rank ↔ x.value ≤ y.value := by
  have zero : f.units 0 = 0 := Format.units_small f.hidden_pos
  have magnitudes := f.strictMono_units.le_iff_le (a := x.magnitude) (b := y.magnitude)
  have back := f.strictMono_units.le_iff_le (a := y.magnitude) (b := x.magnitude)
  have left := f.strictMono_units.le_iff_le (a := x.magnitude) (b := 0)
  have right := f.strictMono_units.le_iff_le (a := y.magnitude) (b := 0)
  rw [zero] at left right
  rw [rank, rank, value, value]
  split <;> split <;> omega

theorem value_ofInt (digits : 0 < f.precision) (deep : f.precision ≤ f.scale + 1) {i : Int}
    (finite : f.exponent (i.natAbs * twoTo f.scale) + 2 < twoTo f.exponentBits) :
    (ofInt f i).value = f.kept i * twoTo f.scale := by
  simp only [value, ofInt, Format.kept, decide_eq_true_eq,
    Format.units_nearest_whole digits deep finite]
  split
  · rw [Int.natCast_mul, Int.neg_mul]
  · exact Int.natCast_mul _ _

def IsWord (i : Int) : Prop := -twoTo 63 ≤ i ∧ i < twoTo 64

instance (i : Int) : Decidable (IsWord i) := inferInstanceAs (Decidable (_ ∧ _))

theorem IsWord.natAbs_lt {i : Int} (h : IsWord i) : i.natAbs < twoTo 64 := by
  have twice : twoTo 64 = 2 * twoTo 63 := twoTo_succ 63
  obtain ⟨low, high⟩ := h
  omega

/-- Words are kept up to their last eleven digits. -/
theorem IsWord.kept_near {i : Int} (h : IsWord i) :
    Format.double.kept i ≤ i + 1024 ∧ i ≤ Format.double.kept i + 1024 := by
  have digits : Format.double.exponent i.natAbs ≤ 11 :=
    Format.exponent_mono .double (Nat.le_sub_one_of_lt h.natAbs_lt)
  have unit : twoTo (Format.double.exponent i.natAbs) ≤ 2 * 1024 :=
    Nat.pow_le_pow_right Nat.two_pos digits
  have near := Format.double.kept_near i
  omega

theorem ofInt_rank_le_iff {i j : Int} (hi : IsWord i) (hj : IsWord j) :
    (ofInt .double i).rank ≤ (ofInt .double j).rank ↔
      Format.double.kept i ≤ Format.double.kept j := by
  have finite {i : Int} (h : IsWord i) :
      Format.double.exponent (i.natAbs * twoTo Format.double.scale) + 2 <
        twoTo Format.double.exponentBits := by
    have longest := Format.exponent_mono .double
      (Nat.mul_le_mul_right (twoTo Format.double.scale) h.natAbs_lt.le)
    have least : Format.double.exponent (twoTo 64 * twoTo Format.double.scale) + 2 <
        twoTo Format.double.exponentBits := by decide +kernel
    omega
  have positive : (0 : Int) < twoTo Format.double.scale := Int.natCast_pos.mpr (twoTo_pos _)
  rw [rank_le_iff, value_ofInt (by decide) (by decide +kernel) (finite hi),
    value_ofInt (by decide) (by decide +kernel) (finite hj)]
  exact Int.mul_le_mul_iff_of_pos_right positive

end Binary
end Dialogue
