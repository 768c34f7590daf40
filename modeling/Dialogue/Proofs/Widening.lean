import Dialogue.Number.Binary
/-!
Numbers of a narrow format in a wide one. A pattern is a significand and an exponent, rounding
keeps what the format already has, and so a single number comes back from double precision.
-/
namespace Dialogue.Format

def hidden (f : Format) : Nat := twoTo (f.precision - 1)

theorem hidden_pos (f : Format) : 0 < f.hidden := twoTo_pos _

theorem units_small {f : Format} {m : Nat} (h : m < f.hidden) : f.units m = m := by
  have first : m / twoTo (f.precision - 1) = 0 := Nat.div_eq_of_lt h
  simp only [units, first]

theorem units_normal {f : Format} {m : Nat} (low : f.hidden ≤ m) (high : m < 2 * f.hidden)
    (e : Nat) : f.units (e * f.hidden + m) = m * twoTo e := by
  obtain ⟨q, rfl⟩ := Nat.exists_eq_add_of_le low
  have hq : q < f.hidden := by omega
  have split : e * f.hidden + (f.hidden + q) = q + f.hidden * (e + 1) := by
    rw [Nat.mul_succ, Nat.mul_comm]
    omega
  have exponent : (q + f.hidden * (e + 1)) / twoTo (f.precision - 1) = e + 1 := by
    change (q + f.hidden * (e + 1)) / f.hidden = e + 1
    rw [Nat.add_mul_div_left _ _ f.hidden_pos, Nat.div_eq_of_lt hq, Nat.zero_add]
  have rest : (q + f.hidden * (e + 1)) % twoTo (f.precision - 1) = q := by
    change (q + f.hidden * (e + 1)) % f.hidden = q
    rw [Nat.add_mul_mod_self_left, Nat.mod_eq_of_lt hq]
  rw [split]
  simp only [units, exponent, rest]
  rfl

/-- A pattern is a significand without an exponent, or one of full length with an exponent. -/
theorem pattern_cases (f : Format) (p : Nat) :
    p < f.hidden ∨ ∃ e m, f.hidden ≤ m ∧ m < 2 * f.hidden ∧ p = e * f.hidden + m := by
  by_cases small : p < f.hidden
  · exact .inl small
  · have split := Nat.div_add_mod p f.hidden
    have rest := Nat.mod_lt p f.hidden_pos
    have large : 0 < p / f.hidden := Nat.div_pos (by omega) f.hidden_pos
    refine .inr ⟨p / f.hidden - 1, f.hidden + p % f.hidden, by omega, by omega, ?_⟩
    have whole : f.hidden * (p / f.hidden) = (p / f.hidden - 1) * f.hidden + f.hidden := by
      rw [← Nat.succ_mul, Nat.succ_eq_add_one, Nat.sub_add_cancel large, Nat.mul_comm]
    omega

theorem roundEven_exact (m : Nat) {d : Nat} (hd : 0 < d) : roundEven (m * d) d = m := by
  have rest : m * d % d = 0 := Nat.mul_mod_left m d
  have floor : m * d / d = m := Nat.mul_div_cancel m hd
  have down : ¬ (2 * 0 > d ∨ 2 * 0 = d ∧ m % 2 = 1) := by omega
  rw [roundEven, rest, floor]
  exact if_neg down

theorem log2_eq {n k : Nat} (low : twoTo k ≤ n) (high : n < twoTo (k + 1)) : n.log2 = k := by
  have positive : n ≠ 0 := Nat.ne_of_gt (Nat.lt_of_lt_of_le (twoTo_pos k) low)
  exact (Nat.log2_eq_iff positive).mpr ⟨low, high⟩

theorem log2_lt {n k : Nat} (positive : n ≠ 0) (h : n < twoTo k) : n.log2 < k :=
  (Nat.log2_lt positive).mpr h

def exponent (f : Format) (n : Nat) : Nat := n.log2 + 1 - f.precision

theorem exponent_small {f : Format} (digits : 0 < f.precision) {m : Nat} (h : m < f.hidden) :
    f.exponent m = 0 := by
  by_cases zero : m = 0
  · subst zero
    exact Nat.sub_eq_zero_of_le digits
  · have short := log2_lt zero h
    rw [exponent]
    omega

theorem exponent_normal {f : Format} (digits : 0 < f.precision) {m : Nat} (low : f.hidden ≤ m)
    (high : m < 2 * f.hidden) (e : Nat) : f.exponent (m * twoTo e) = e := by
  have length : (m * twoTo e).log2 = f.precision - 1 + e := by
    apply log2_eq
    · rw [twoTo_add]
      exact Nat.mul_le_mul_right _ low
    · rw [Nat.add_right_comm, twoTo_add, twoTo_succ]
      exact Nat.mul_lt_mul_of_pos_right high (twoTo_pos e)
  rw [exponent, length]
  omega

/-- A quotient that the format has exactly is not rounded: it is divided by the very power of two
that its pattern was made with. -/
theorem nearest_units {f : Format} (digits : 0 < f.precision) {p : Nat} (finite : p < f.infinity)
    {n d : Nat} (hd : 0 < d) (exact : n * twoTo f.scale = f.units p * d) : f.nearest n d = p := by
  have quotient : n * twoTo f.scale / d = f.units p := by
    rw [exact, Nat.mul_div_cancel _ hd]
  have kept : f.exponent (f.units p) * f.hidden +
      roundEven (n * twoTo f.scale) (d * twoTo (f.exponent (f.units p))) = p := by
    rw [exact]
    obtain small | ⟨e, m, low, high, rfl⟩ := f.pattern_cases p
    · rw [units_small small, exponent_small digits small]
      have unscaled : d * twoTo 0 = d := Nat.mul_one d
      rw [unscaled, roundEven_exact p hd, Nat.zero_mul, Nat.zero_add]
    · rw [units_normal low high, exponent_normal digits low high]
      have scaled : m * twoTo e * d = m * (d * twoTo e) := by
        rw [Nat.mul_assoc, Nat.mul_comm (twoTo e) d]
      rw [scaled, roundEven_exact m (Nat.mul_pos hd (twoTo_pos e))]
  have rounded : f.nearest n d = min f.infinity (f.exponent (f.units p) * f.hidden +
      roundEven (n * twoTo f.scale) (d * twoTo (f.exponent (f.units p)))) := by
    simp only [nearest, quotient]
    rfl
  rw [rounded, kept]
  omega

/-- A significand of single length, with an exponent of single precision, has a pattern in double
precision: it is filled up to its full length. -/
theorem units_filled {m e : Nat} (positive : m ≠ 0) (short : m < twoTo 24) (low : e ≤ 253) :
    ∃ q, q < double.infinity ∧ double.units q = m * twoTo e * twoTo 925 := by
  have length : m.log2 < 24 := log2_lt positive short
  obtain ⟨fill, hfill⟩ : ∃ fill, 52 = m.log2 + fill := ⟨52 - m.log2, by omega⟩
  have floor : twoTo m.log2 ≤ m := Nat.log2_self_le positive
  have ceiling : m < twoTo (m.log2 + 1) := Nat.lt_log2_self
  have hhidden : double.hidden = twoTo m.log2 * twoTo fill := by
    rw [← twoTo_add, ← hfill]
    rfl
  have full : double.hidden ≤ m * twoTo fill := by
    rw [hhidden]
    exact Nat.mul_le_mul_right _ floor
  have within : m * twoTo fill < 2 * double.hidden := by
    rw [hhidden, ← Nat.mul_assoc, ← twoTo_succ]
    exact Nat.mul_lt_mul_of_pos_right ceiling (twoTo_pos fill)
  -- A unit of single precision is two to the 925th of the other, more than filling takes away.
  obtain ⟨k, hk⟩ : ∃ k, e + 925 = fill + k := ⟨e + 925 - fill, by omega⟩
  refine ⟨k * double.hidden + m * twoTo fill, ?_, ?_⟩
  · have infinity : double.infinity = 2047 * double.hidden := rfl
    have exponent : k * double.hidden ≤ 1178 * double.hidden :=
      Nat.mul_le_mul_right _ (by omega)
    have positive := double.hidden_pos
    omega
  · rw [units_normal full within, Nat.mul_assoc, Nat.mul_assoc, ← twoTo_add, ← twoTo_add, hk]

/-- Every finite number of single precision is one of double precision. -/
theorem units_widen {p : Nat} (finite : p < single.infinity) :
    ∃ q, q < double.infinity ∧ double.units q = single.units p * twoTo 925 := by
  obtain small | ⟨e, m, low, high, rfl⟩ := single.pattern_cases p
  · rw [units_small small]
    by_cases zero : p = 0
    · subst zero
      exact ⟨0, Nat.mul_pos (by decide) double.hidden_pos, by rw [Nat.zero_mul]; rfl⟩
    · have short : p < twoTo 24 := Nat.lt_trans small (by decide)
      have unscaled : p * twoTo 0 = p := Nat.mul_one p
      rw [← unscaled]
      exact units_filled zero short (Nat.zero_le _)
  · rw [units_normal low high]
    have infinity : single.infinity = 255 * single.hidden := rfl
    have exponent : e ≤ 253 := by
      have more : (e + 1) * single.hidden < 255 * single.hidden := by
        rw [Nat.succ_mul]
        omega
      have less := Nat.lt_of_mul_lt_mul_right more
      omega
    have nonzero : m ≠ 0 := Nat.ne_of_gt (Nat.lt_of_lt_of_le single.hidden_pos low)
    have short : m < twoTo 24 := high
    exact units_filled nonzero short exponent

end Format

namespace Binary

/-- A number of single precision that is widened and rounded again is the same number. -/
theorem convert_convert {x : Single} (finite : x.isFinite = true) :
    (x.convert .double).convert .single = x := by
  have low : x.magnitude < Format.single.infinity := of_decide_eq_true finite
  obtain ⟨q, hq, same⟩ := Format.units_widen low
  have widened : x.convert .double = ⟨x.negative, q⟩ := by
    have exact : Format.single.units x.magnitude * twoTo Format.double.scale =
        Format.double.units q * twoTo Format.single.scale := by
      rw [same, Nat.mul_assoc, ← twoTo_add]
      rfl
    have rounded := Format.nearest_units (by decide) hq (twoTo_pos Format.single.scale) exact
    rw [convert, if_pos finite, rounded]
  have back : Format.double.units q * twoTo Format.single.scale =
      Format.single.units x.magnitude * twoTo Format.double.scale := by
    rw [same, Nat.mul_assoc, ← twoTo_add]
    rfl
  have rounded := Format.nearest_units (by decide) low (twoTo_pos Format.double.scale) back
  have remains : Binary.isFinite (⟨x.negative, q⟩ : Double) = true := decide_eq_true hq
  rw [widened, convert, if_pos remains, rounded]

end Binary
end Dialogue
