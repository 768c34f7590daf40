import Dialogue.Number.Decimal
import Dialogue.Proofs.Rounding
/-!
The decimal that a number is written as. Main statement: of a finite number other than zero the
search for the fewest digits finds a decimal, and it reads back as the number.
-/
namespace Dialogue

namespace Format
variable {f : Format}

/-- The pattern nearest to a quotient depends on its value alone. -/
theorem nearest_scaled (n d : Nat) {k : Nat} (hk : 0 < k) :
    f.nearest (n * k) (d * k) = f.nearest n d := by
  have quotient : n * k * twoTo f.scale / (d * k) = n * twoTo f.scale / d := by
    rw [Nat.mul_right_comm, Nat.mul_div_mul_right _ _ hk]
  have rounded (e : Nat) : roundEven (n * k * twoTo f.scale) (d * k * twoTo e) =
      roundEven (n * twoTo f.scale) (d * twoTo e) := by
    rw [Nat.mul_right_comm n, Nat.mul_right_comm d, roundEven_scaled _ _ hk]
  simp only [nearest, quotient, rounded]

/-- The range of exponents in which a decimal is rounded from its value. -/
theorem ofDecimal_nearest {digits : Nat} (some : digits ≠ 0) (exponent : Int)
    (low : -(twoTo f.exponentBits : Int) ≤ exponent) (high : exponent ≤ twoTo f.exponentBits) :
    f.ofDecimal digits exponent =
      f.nearest (digits * tenTo exponent.toNat) (tenTo (-exponent).toNat) := by
  rw [ofDecimal, if_neg some, if_neg (by omega), if_neg (by omega)]

theorem tenTo_pos (n : Nat) : 0 < tenTo n := Nat.pow_pos (by decide)

/-- A whole number is the same with a zero behind the point. -/
theorem ofDecimal_tenth (digits : Nat) {places : Nat} (few : places ≤ twoTo f.exponentBits) :
    f.ofDecimal (digits * tenTo (places + 1)) (-1) = f.ofDecimal digits places := by
  by_cases some : digits = 0
  · rw [some, Nat.zero_mul, ofDecimal, ofDecimal, if_pos rfl, if_pos rfl]
  · have wide : 0 < twoTo f.exponentBits := twoTo_pos _
    have more := Nat.mul_ne_zero some (tenTo_pos (places + 1)).ne'
    have tenth := f.ofDecimal_nearest more (-1) (by omega) (by omega)
    have whole := f.ofDecimal_nearest some places (by omega) (by omega)
    rw [tenth, whole, Int.toNat_natCast, Int.toNat_neg_natCast]
    change f.nearest (digits * (tenTo places * 10) * 1) (1 * 10) = f.nearest _ 1
    rw [Nat.mul_one, ← Nat.mul_assoc, f.nearest_scaled _ _ (by decide)]

end Format

namespace Decimal

variable {f : Format} {tie : Tie} {magnitude : Nat}

def Reads (f : Format) (magnitude : Nat) (d : Decimal) : Prop :=
  f.ofDecimal d.digits d.exponent = magnitude

theorem beside_reads {exponent : Int} {d : Decimal}
    (h : beside f tie magnitude exponent = some d) : Reads f magnitude d := by
  unfold beside at h
  dsimp only at h
  split at h
  · next reads =>
    cases h
    exact reads.1
  · split at h
    · next reads =>
      cases h
      exact reads
    · cases h

def floor (f : Format) (magnitude : Nat) (exponent : Int) : Nat :=
  f.units magnitude * tenTo (-exponent).toNat / (twoTo f.scale * tenTo exponent.toNat)

theorem beside_isSome (tie : Tie) {exponent : Int}
    (h : Reads f magnitude ⟨floor f magnitude exponent, exponent⟩) :
    (beside f tie magnitude exponent).isSome = true := by
  unfold beside
  dsimp only
  split
  · rfl
  · next first =>
    split
    · rfl
    · next second => exact absurd ⟨h, .inr second⟩ first

theorem tenTo_eq (n : Nat) : tenTo n = Nat.pow 5 n * twoTo n :=
  (Nat.mul_pow 2 5 n).trans (Nat.mul_comm _ _)

/-- A unit is a power of a half, so of five over ten: at its place nothing is left out. -/
theorem floor_whole (f : Format) (magnitude : Nat) :
    floor f magnitude (-f.scale) = f.units magnitude * Nat.pow 5 f.scale := by
  have one : tenTo 0 = 1 := rfl
  rw [floor, Int.neg_neg, Int.toNat_natCast, Int.toNat_neg_natCast, one, Nat.mul_one, tenTo_eq,
    ← Nat.mul_assoc, Nat.mul_div_cancel _ (twoTo_pos _)]

theorem whole_reads (digits : 0 < f.precision) (wide : f.scale ≤ twoTo f.exponentBits)
    (finite : magnitude < f.infinity) (nonzero : magnitude ≠ 0) :
    Reads f magnitude ⟨floor f magnitude (-f.scale), -f.scale⟩ := by
  have zero : f.units 0 = 0 := Format.units_small f.hidden_pos
  have units : 0 < f.units magnitude := by
    have more := f.strictMono_units (Nat.pos_of_ne_zero nonzero)
    omega
  have some : floor f magnitude (-f.scale) ≠ 0 := by
    rw [floor_whole]
    exact (Nat.mul_pos units (Nat.pow_pos (by decide))).ne'
  have low : -(twoTo f.exponentBits : Int) ≤ -f.scale := by omega
  have high : -(f.scale : Int) ≤ twoTo f.exponentBits := by omega
  have one : tenTo 0 = 1 := rfl
  rw [Reads, Format.ofDecimal_nearest some _ low high, Int.neg_neg, Int.toNat_natCast,
    Int.toNat_neg_natCast, one, Nat.mul_one, floor_whole]
  refine Format.nearest_units digits finite (Format.tenTo_pos _) ?_
  rw [tenTo_eq, Nat.mul_assoc]

theorem shortest_reads (digits : 0 < f.precision) (wide : f.scale ≤ twoTo f.exponentBits)
    (finite : magnitude < f.infinity) (nonzero : magnitude ≠ 0) :
    Reads f magnitude (shortest f tie magnitude) := by
  -- The search ends at minus the scale at the latest, where the value itself is a decimal.
  have deepest : -(f.scale : Int) ∈
      (List.range (top f magnitude + f.scale + 1).toNat).map
        fun i : Nat => top f magnitude - i := by
    have low : 0 ≤ top f magnitude + f.scale := by
      rw [top]
      omega
    refine List.mem_map.mpr ⟨(top f magnitude + f.scale).toNat, List.mem_range.mpr (by omega), ?_⟩
    omega
  have found := List.findSome?_isSome_iff.mpr
    ⟨_, deepest, beside_isSome tie (whole_reads digits wide finite nonzero)⟩
  obtain ⟨d, hd⟩ := Option.isSome_iff_exists.mp found
  obtain ⟨exponent, -, beside⟩ := List.exists_of_findSome?_eq_some hd
  rw [shortest, hd]
  exact beside_reads beside

end Decimal
end Dialogue
