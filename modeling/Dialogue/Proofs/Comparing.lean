import Dialogue.Proofs.Rounding
import Dialogue.Variables
/-!
Comparisons of whole numbers. They are compared as doubles. Main statement: a comparison tells how
what a double keeps of them is related, which is how they are related themselves exactly if no two
numbers are kept as one.
-/
namespace Dialogue

open Json (Value)
open Format (double)

namespace Comparison

def Relates : Comparison → Int → Int → Prop
  | .ge, i, j => i ≥ j
  | .le, i, j => i ≤ j
  | .gt, i, j => i > j
  | .lt, i, j => i < j
  | .ne, i, j => i ≠ j
  | .eq, i, j => i = j
  | .contains, _, _ => False
  | .notContains, _, _ => True

/-- Only the order of the numbers counts. -/
theorem Relates.congr {i j k l : Int} (le : i ≤ j ↔ k ≤ l) (ge : j ≤ i ↔ l ≤ k) (op : Comparison) :
    op.Relates i j ↔ op.Relates k l := by
  cases op <;> simp only [Relates] <;> omega

end Comparison

namespace Condition

variable {i j : Int}

theorem sameValue_int :
    sameValue (.int i) (.int j) = true ↔
      (Binary.ofInt .double i).rank = (Binary.ofInt .double j).rank := by
  simp [sameValue, Value.int, Json.Number.toDouble, Binary.equal]

theorem compareValues_int (op : Comparison) :
    (compareValues op (.int i) (.int j)).getD false = true ↔
      op.Relates (Binary.ofInt .double i).rank (Binary.ofInt .double j).rank := by
  have ordered : order? (.int i) (.int j) =
      some (Ord.compare (Binary.ofInt .double i).rank (Binary.ofInt .double j).rank) := rfl
  cases op with
  | eq => exact sameValue_int
  | ne => simp [compareValues, Comparison.Relates, ← sameValue_int]
  | contains => exact iff_of_false nofun id
  | notContains => exact iff_of_true rfl trivial
  | gt => simp [compareValues, ordered, Comparison.Relates, compare_gt_iff_gt]
  | lt => simp [compareValues, ordered, Comparison.Relates, compare_lt_iff_lt]
  | ge => simp [compareValues, ordered, Comparison.Relates, compare_ge_iff_ge]
  | le => simp [compareValues, ordered, Comparison.Relates, compare_le_iff_le]

theorem containsValue_ints (items : List Int) :
    containsValue (.array (items.map .int)) (.int j) = true ↔
      ∃ i ∈ items, (Binary.ofInt .double i).rank = (Binary.ofInt .double j).rank := by
  rw [containsValue, List.any_map, List.any_eq_true]
  simp only [Function.comp_apply, sameValue_int]

theorem eval_compare {lookup : String → Option Value} {x y : String} {l r : Value}
    (hx : Operand.value lookup (.variable x) = l) (hy : Operand.value lookup (.variable y) = r)
    (op : Comparison) :
    (compare (.variable x) op (.variable y)).eval lookup = (compareValues op l r).getD false := by
  rw [eval, hx, hy]

end Condition

theorem Operand.value_present {lookup : String → Option Value} {x : String} {v : Value}
    (hx : lookup x = some v) (present : v.isNull = false) :
    (Operand.variable x).value lookup = v := by
  rw [value, hx]
  cases v with
  | null => cases present
  | _ => rfl

theorem Variables.satisfies_eq (vars : Variables) {text : String} {c : Condition}
    (reads : Condition.ofText text = .ok c) : vars.satisfies text = c.eval vars.get? := by
  rw [satisfies, reads]

/-- The order of two numbers that are not kept as one is kept. -/
theorem kept_le_iff {i j : Int} (apart : double.kept i = double.kept j → i = j) :
    double.kept i ≤ double.kept j ↔ i ≤ j := by
  refine ⟨fun h => ?_, double.kept_mono (by decide)⟩
  by_contra above
  have back := double.kept_mono (by decide) (Int.le_of_not_le above)
  exact above (apart (Int.le_antisymm h back)).le

theorem relates_kept_iff {i j : Int} :
    (∀ op : Comparison, op.Relates (double.kept i) (double.kept j) ↔ op.Relates i j) ↔
      (double.kept i = double.kept j → i = j) := by
  refine ⟨fun all => (all .eq).mp, fun apart => Comparison.Relates.congr (kept_le_iff apart) ?_⟩
  exact kept_le_iff fun same => (apart same.symm).symm

/-- An equation between two whole numbers tells how what a double keeps of them is related, and a
list contains a number if it has one that is kept as the same. So the equations are right about two
numbers exactly if these are not kept as one. What is kept is in the same order, is the number
itself up to 53 digits, and is within 1024 of it in any case. -/
theorem words_compare (vars : Variables) (x y : String) (i j : Int) (hi : Binary.IsWord i)
    (hj : Binary.IsWord j) (hx : vars.get? x = some (.int i)) (hy : vars.get? y = some (.int j)) :
    let kept := double.kept
    let holds (x : String) (op : Comparison) :=
      (Condition.compare (.variable x) op (.variable y)).eval vars.get? = true
    (∀ text x op, Condition.ofText text = .ok (.compare (.variable x) op (.variable y)) →
      (vars.satisfies text = true ↔ holds x op)) ∧
    (∀ op, holds x op ↔ op.Relates (kept i) (kept j)) ∧
    ((∀ op, holds x op ↔ op.Relates i j) ↔ (kept i = kept j → i = j)) ∧
    (∀ list (items : List Int), vars.get? list = some (.array (items.map .int)) →
      (∀ k ∈ items, Binary.IsWord k) →
      (holds list .contains ↔ ∃ k ∈ items, kept k = kept j)) ∧
    (∀ k l, k ≤ l → kept k ≤ kept l) ∧ (∀ k, k.natAbs ≤ twoTo 53 → kept k = k) ∧
    ∀ k, Binary.IsWord k → kept k ≤ k + 1024 ∧ k ≤ kept k + 1024 := by
  intro kept holds
  have value_x := Operand.value_present hx rfl
  have value_y := Operand.value_present hy rfl
  have ranks {k l : Int} (hk : Binary.IsWord k) (hl : Binary.IsWord l) (op : Comparison) :
      op.Relates (Binary.ofInt .double k).rank (Binary.ofInt .double l).rank ↔
        op.Relates (kept k) (kept l) :=
    Comparison.Relates.congr (Binary.ofInt_rank_le_iff hk hl) (Binary.ofInt_rank_le_iff hl hk) op
  have told (op : Comparison) : holds x op ↔ op.Relates (kept i) (kept j) := by
    change (Condition.eval _ _ = true) ↔ _
    rw [Condition.eval_compare value_x value_y, Condition.compareValues_int, ranks hi hj]
  refine ⟨fun text x op reads => by rw [vars.satisfies_eq reads], told, ?_, ?_, ?_, ?_, ?_⟩
  · simp only [told]
    exact relates_kept_iff
  · intro list items listed words
    have value_list := Operand.value_present listed rfl
    change (Condition.eval _ _ = true) ↔ _
    rw [Condition.eval_compare value_list value_y]
    refine Condition.containsValue_ints items |>.trans (exists_congr fun k => ?_)
    exact and_congr_right fun listed => ranks (words k listed) hj .eq
  · exact fun k l => double.kept_mono (by decide)
  · exact fun k short => double.kept_short (by decide) short
  · exact fun k => Binary.IsWord.kept_near

def crowded : Variables :=
  .ofInitial [("a", .int (twoTo 53)), ("b", .int (twoTo 53 + 1)), ("c", .array [.int (twoTo 53)]),
    ("d", .int (twoTo 64 - 1))]

theorem crowded_compares :
    (Binary.IsWord (twoTo 53 + 1) ∧ Binary.IsWord (twoTo 64 - 1) ∧
      crowded.get? "b" = some (.int (twoTo 53 + 1)) ∧
      crowded.get? "d" = some (.int (twoTo 64 - 1))) ∧
    ∀ op, (Condition.compare (.variable "b") op (.variable "d")).eval crowded.get? = true ↔
      op.Relates (twoTo 53 + 1) (twoTo 64 - 1) := by
  have apart : double.kept (twoTo 53 + 1) ≠ double.kept (twoTo 64 - 1) := by decide +kernel
  obtain ⟨-, -, exact_iff, -⟩ := words_compare crowded "b" "d" (twoTo 53 + 1) (twoTo 64 - 1)
    (by decide) (by decide) rfl rfl
  exact ⟨⟨by decide, by decide, rfl, rfl⟩, exact_iff.mpr fun same => absurd same apart⟩

theorem crowded_blurs :
    crowded.get? "a" = some (.int (twoTo 53)) ∧ crowded.get? "b" = some (.int (twoTo 53 + 1)) ∧
      crowded.satisfies "\x7b\x7ba\x7d\x7d == \x7b\x7bb\x7d\x7d" = true ∧
      twoTo 53 ≠ twoTo 53 + 1 ∧
      crowded.get? "c" = some (.array [.int (twoTo 53)]) ∧
      crowded.satisfies "\x7b\x7bc\x7d\x7d CONTAINS \x7b\x7bb\x7d\x7d" = true ∧
      twoTo 53 + 1 ∉ [twoTo 53] :=
  ⟨rfl, rfl, by decide +kernel, by decide, rfl, by decide +kernel, by decide⟩

end Dialogue
