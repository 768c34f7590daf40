import Dialogue.Proofs.Shortest
import Dialogue.Speech.Audio
/-!
Samples in a time. The count is worked out in double precision, with a quotient that is rounded
twice, to the format and to a whole number. Main statement: it is the exact one, rounded once, as
long as the product of time and rate is within the digits of the format.
-/
namespace Dialogue

namespace Format
variable {f : Format}

/-- A quotient of whole numbers stands for its leading digits, rounded half to even. -/
theorem units_nearest (digits : 0 < f.precision) {n d : Nat}
    (finite : f.exponent (n * twoTo f.scale / d) + 2 < twoTo f.exponentBits) :
    f.units (f.nearest n d) =
      roundEven (n * twoTo f.scale) (d * twoTo (f.exponent (n * twoTo f.scale / d))) *
        twoTo (f.exponent (n * twoTo f.scale / d)) := by
  generalize hq : n * twoTo f.scale / d = q at finite ⊢
  generalize hm : roundEven (n * twoTo f.scale) (d * twoTo (f.exponent q)) = m
  have floor : n * twoTo f.scale / (d * twoTo (f.exponent q)) = q / twoTo (f.exponent q) := by
    rw [← Nat.div_div_eq_div_mul, hq]
  have high : m ≤ 2 * f.hidden := by
    rw [← hm]
    exact (roundEven_le_succ _ _).trans (floor ▸ leading_lt digits q)
  have nearest : f.nearest n d = f.exponent q * f.hidden + m := by
    have rounded : f.nearest n d = min f.infinity (f.exponent q * f.hidden + m) := by
      simp only [Format.nearest, hq, ← hm]
      rfl
    have room : (f.exponent q + 2) * f.hidden ≤ f.infinity :=
      Nat.mul_le_mul_right _ (Nat.le_sub_one_of_lt finite)
    rw [Nat.add_mul] at room
    rw [rounded]
    omega
  rw [nearest]
  by_cases low : f.hidden ≤ m
  · exact units_full low high _
  · have short : f.exponent q = 0 := by
      by_contra long
      have full := (le_leading digits (Nat.pos_of_ne_zero long)).trans
        (floor ▸ roundEven_le (n * twoTo f.scale) (d * twoTo (f.exponent q)))
      exact low (hm ▸ full)
    rw [short, Nat.zero_mul, Nat.zero_add, units_small (Nat.lt_of_not_le low)]
    exact (Nat.mul_one m).symm

/-- A short whole number is exact in double precision. -/
theorem units_whole {n : Nat} (short : n ≤ twoTo 53) :
    double.units (double.nearest n 1) = n * twoTo double.scale := by
  have long : double.exponent (n * twoTo double.scale) ≤
      double.exponent (twoTo 53 * twoTo double.scale) :=
    double.exponent_mono (Nat.mul_le_mul_right _ short)
  have least : double.exponent (twoTo 53 * twoTo double.scale) + 2 < twoTo double.exponentBits := by
    decide +kernel
  rw [units_nearest_whole (by decide) (by decide +kernel) (by omega), keep_short (by decide) short]

/-- Rounding to a fraction of a whole is no matter to rounding to a whole, if the fraction is fine
enough to tell a half from its neighbours among the thousandths. -/
theorem round_again {t : Nat} (positive : 0 < t) (n : Nat) :
    (2 * roundEven (n * (512 * t)) 1000 + 512 * t) / (2 * (512 * t)) = (n + 500) / 1000 := by
  obtain ⟨k, r, small, rfl⟩ : ∃ k r, r < 1000 ∧ n = 1000 * k + r :=
    ⟨n / 1000, n % 1000, Nat.mod_lt n (by decide), (Nat.div_add_mod n 1000).symm⟩
  have near := roundEven_near ((1000 * k + r) * (512 * t)) (d := 1000) (by decide)
  have spread : (1000 * k + r) * (512 * t) = 1000 * (k * (512 * t)) + r * (512 * t) := by
    rw [Nat.add_mul, Nat.mul_assoc]
  have up (m : Nat) : (m + 1) * (2 * (512 * t)) = 2 * (m * (512 * t)) + 2 * (512 * t) := by
    rw [Nat.succ_mul, Nat.mul_left_comm]
  have next : (k + 1) * (512 * t) = k * (512 * t) + 512 * t := Nat.succ_mul k _
  rw [spread] at near ⊢
  rcases Nat.lt_trichotomy r 500 with below | rfl | above
  · have whole : (1000 * k + r + 500) / 1000 = k := by omega
    have rest : r * (512 * t) ≤ 499 * (512 * t) := Nat.mul_le_mul_right _ (by omega)
    rw [whole]
    apply Nat.div_eq_of_lt_le
    · rw [Nat.mul_left_comm]
      omega
    · rw [up]
      omega
  · have whole : (1000 * k + 500 + 500) / 1000 = k + 1 := by omega
    -- A half is exact, so it is rounded once.
    have exact : 1000 * (k * (512 * t)) + 500 * (512 * t) = (k * (512 * t) + 256 * t) * 1000 := by
      omega
    rw [exact, roundEven_exact _ (by decide), whole]
    apply Nat.div_eq_of_lt_le
    · rw [up]
      omega
    · rw [up, next]
      omega
  · have whole : (1000 * k + r + 500) / 1000 = k + 1 := by omega
    have rest : 501 * (512 * t) ≤ r * (512 * t) := Nat.mul_le_mul_right _ above
    have rest' : r * (512 * t) ≤ 999 * (512 * t) := Nat.mul_le_mul_right _ (by omega)
    rw [whole]
    apply Nat.div_eq_of_lt_le
    · rw [up]
      omega
    · rw [up, next]
      omega

/-- A thousandth of a short whole number is rounded to the whole number that it is nearest to. -/
theorem round_thousandth {n : Nat} (short : n < twoTo 53) :
    double.round (double.nearest n 1000) = (n + 500) / 1000 := by
  have few : double.exponent (n * twoTo double.scale / 1000) ≤ 1065 := by
    have bound : n * twoTo double.scale / 1000 < twoTo (44 + double.scale) := by
      rw [Nat.div_lt_iff_lt_mul (by decide), twoTo_add, Nat.mul_right_comm]
      refine Nat.mul_lt_mul_of_pos_right (Nat.lt_trans short ?_) (twoTo_pos _)
      decide
    have scale : double.scale = 1074 := rfl
    have precision : double.precision = 53 := rfl
    by_cases zero : n * twoTo double.scale / 1000 = 0
    · rw [zero, exponent, Nat.log2_zero]
      omega
    · have length := log2_lt zero bound
      rw [exponent]
      omega
  have units := units_nearest (f := double) (by decide) (n := n) (d := 1000) (by
    have wide : twoTo double.exponentBits = 2048 := rfl
    omega)
  generalize double.exponent (n * twoTo double.scale / 1000) = e at few units
  -- What is rounded to is a power of two below the whole.
  obtain ⟨t, positive, unit⟩ : ∃ t, 0 < t ∧ twoTo double.scale = 512 * t * twoTo e := by
    refine ⟨twoTo (1065 - e), twoTo_pos _, ?_⟩
    have split : double.scale = 9 + 1065 := rfl
    have factor : twoTo 9 = 512 := rfl
    rw [Nat.mul_assoc, ← twoTo_add, Nat.sub_add_cancel few, split, twoTo_add, factor]
  have scaled : roundEven (n * twoTo double.scale) (1000 * twoTo e) =
      roundEven (n * (512 * t)) 1000 := by
    rw [unit, ← Nat.mul_assoc, roundEven_scaled _ _ (twoTo_pos e)]
  rw [scaled] at units
  have halves : 2 * (roundEven (n * (512 * t)) 1000 * twoTo e) + 512 * t * twoTo e =
      (2 * roundEven (n * (512 * t)) 1000 + 512 * t) * twoTo e := by
    rw [Nat.add_mul, Nat.mul_assoc 2]
  rw [round, units, twoTo_succ, unit, halves, ← Nat.mul_assoc 2,
    Nat.mul_div_mul_right _ _ (twoTo_pos e), round_again positive]

end Format

namespace Audio

/-- Where the product is short, no digit of the count is lost. -/
theorem samplesIn_eq {ms rate : Nat} (time : ms < twoTo 32) (pace : rate < twoTo 32)
    (short : ms * rate < twoTo 53) : samplesIn (.ofInt .double ms) rate = samplesOf ms rate := by
  let f := Format.double
  have exactly {n : Nat} (h : n < twoTo 32) : f.units (f.nearest n 1) = n * twoTo f.scale :=
    Format.units_whole (Nat.le_of_lt (h.trans (by decide)))
  have product : f.mul (f.nearest ms 1) (f.nearest rate 1) = f.nearest (ms * rate) 1 := by
    have square : twoTo (2 * f.scale) = 1 * (twoTo f.scale * twoTo f.scale) := by
      rw [Nat.one_mul, ← twoTo_add, Nat.two_mul]
    rw [Format.mul, exactly time, exactly pace, square, Nat.mul_mul_mul_comm,
      Format.nearest_scaled _ _ (Nat.mul_pos (twoTo_pos _) (twoTo_pos _))]
  have quotient : f.div (f.nearest (ms * rate) 1) (f.nearest 1000 1) =
      f.nearest (ms * rate) 1000 := by
    rw [Format.div, Format.units_whole short.le, exactly (by decide),
      Format.nearest_scaled _ _ (twoTo_pos _)]
  have magnitude : (Binary.ofInt f ms).magnitude = f.nearest ms 1 := rfl
  by_cases zero : ms = 0
  · have none : Binary.ofInt f ((0 : Nat) : Int) ≤ ⟨false, 0⟩ := by decide +kernel
    have nothing : samplesOf 0 rate = 0 := by rw [samplesOf, Nat.zero_mul]
    rw [zero, nothing, samplesIn, if_pos none]
  · have some : ¬ Binary.ofInt f (ms : Int) ≤ ⟨false, 0⟩ := by
      rintro ⟨-, -, low⟩
      have positive : (Binary.ofInt f (ms : Int)).rank = (f.nearest ms 1 : Int) := rfl
      rw [positive] at low
      have least : f.nearest ms 1 = 0 := Nat.le_zero.mp (Int.ofNat_le.mp low)
      have units := exactly time
      rw [least, Format.units_small f.hidden_pos] at units
      exact Nat.mul_ne_zero zero (twoTo_pos f.scale).ne' units.symm
    have count : (ms * rate + 500) / 1000 ≤ twoTo 64 - 1 := by
      have bound : twoTo 53 ≤ twoTo 64 - 1 := by decide
      omega
    rw [samplesIn, if_neg some, magnitude]
    change min (twoTo 64 - 1) (f.round (f.div (f.mul (f.nearest ms 1) (f.nearest rate 1))
      (f.nearest 1000 1))) = samplesOf ms rate
    rw [product, quotient, Format.round_thousandth short, Nat.min_eq_right count, samplesOf]

end Audio
end Dialogue
