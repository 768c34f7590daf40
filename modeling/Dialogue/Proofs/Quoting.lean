import Dialogue.Proofs.Comparing
import Dialogue.Proofs.Lexing
/-!
Comparisons with quoted text. Main statement: such an equation compares the value of the variable
with the text between the quotes, whatever is written in either.
-/
namespace Dialogue

open Json (Value)
open Condition (Names compareValues)

theorem Condition.sameValue_string {v : Value} {s : String} :
    sameValue v (.string s) = true ↔ v = .string s := by
  cases v <;> simp [sameValue, Value.equal]

/-- The value of a name, the empty string for one without a value. -/
theorem Operand.value_eq (lookup : String → Option Value) (name : String) :
    (Operand.variable name).value lookup =
      ((lookup name).filter fun v => !v.isNull).getD (.string "") := by
  rw [Operand.value]
  cases lookup name with
  | none => rfl
  | some v => cases v <;> rfl

/-- An equation of a variable and a quoted text compares the value of the variable, or the empty
string for none, with the text; where these have no order it is false. So it is an equality exactly
if the value is that very string. -/
theorem quoted_compares (vars : Variables) (text name spelling s : String) (op : Comparison)
    (q : Char) (names : Names text name) (spelt : spelling ∈ op.spellings)
    (quote : q = '\'' ∨ q = '"') (inside : q ∉ s.toList) :
    let equation := "\x7b\x7b" ++ text ++ "\x7d\x7d " ++ spelling ++ " " ++
      (q.toString ++ s ++ q.toString)
    let value := ((vars.get? name).filter fun v => !v.isNull).getD (.string "")
    vars.satisfies equation = (compareValues op value (.string s)).getD false ∧
      (op = .eq → (vars.satisfies equation = true ↔ value = .string s)) := by
  intro equation value
  have lexes : Condition.Lexes (q.toString ++ s ++ q.toString).toList [.quoted s] := by
    simpa using Condition.lexes_nil.quoted quote inside
  have reads : Condition.ofText equation = .ok (.compare (.variable name) op (.quoted s)) :=
    Condition.reads_comparison names spelt lexes (.quoted s [])
  have compared : vars.satisfies equation = (compareValues op value (.string s)).getD false := by
    rw [vars.satisfies_eq reads, Condition.eval, Operand.value_eq]
    rfl
  refine ⟨compared, ?_⟩
  rintro rfl
  rw [compared]
  exact Condition.sameValue_string

def thicket : String := "it's \x7b\x7ba\x7d\x7d >= (b) AND 'c' OR"

def tangled : Variables := .ofInitial [("OR '\x7d>=", .string thicket)]

theorem tangled_compares :
    (Names " OR '\x7d>= " "OR '\x7d>=" ∧ "==" ∈ Comparison.spellings .eq ∧
      '"' ∉ thicket.toList) ∧
    tangled.satisfies ("\x7b\x7b OR '\x7d>= \x7d\x7d == \"" ++ thicket ++ "\"") = true ∧
    (Names "gone" "gone" ∧ "NOT CONTAINS" ∈ Comparison.spellings .notContains) ∧
    tangled.satisfies "\x7b\x7bgone\x7d\x7d NOT CONTAINS ''" = false := by
  have names : Names " OR '\x7d>= " "OR '\x7d>=" :=
    Condition.names_iff.mpr (by decide +kernel)
  have gone : Names "gone" "gone" := Condition.names_iff.mpr (by decide +kernel)
  have present := quoted_compares tangled " OR '\x7d>= " "OR '\x7d>=" "==" thicket .eq '"' names
    (by decide) (.inr rfl) (by decide)
  have absent := quoted_compares tangled "gone" "gone" "NOT CONTAINS" "" .notContains '\'' gone
    (by decide) (.inl rfl) (by decide)
  have spelt : "\x7b\x7b OR '\x7d>= \x7d\x7d == \"" ++ thicket ++ "\"" =
      "\x7b\x7b" ++ " OR '\x7d>= " ++ "\x7d\x7d " ++ "==" ++ " " ++
        ('"'.toString ++ thicket ++ '"'.toString) := by decide +kernel
  refine ⟨⟨names, by decide, by decide⟩, ?_, ⟨gone, by decide⟩, absent.1.trans (by decide +kernel)⟩
  rw [spelt]
  exact (present.2 rfl).mpr rfl

end Dialogue
