import Dialogue.Condition.Expression
import Dialogue.Json.Numeral
/-! The truth of a condition, given the values of the variables. -/
namespace Dialogue

open Json (Value)

/-- Unquoted text is the first of these that it can be: a whole number without a point, a finite
decimal with one, a truth value, a string. -/
def Literal.coerce (text : String) : Value :=
  let cs := Text.trim text.toList
  let trimmed := String.ofList cs
  match Json.Number.ofText? cs with
  | some n => .number n
  | none =>
    if trimmed.toLower = "true" then .bool true
    else if trimmed.toLower = "false" then .bool false
    else .string trimmed

/-- The value of an operand; a variable that is missing or null reads as the empty string. -/
def Operand.value (lookup : String → Option Value) : Operand → Value
  | .variable name =>
    match lookup name with
    | none | some .null => .string ""
    | some v => v
  | .quoted text => .string text
  | .bare text => Literal.coerce text

namespace Condition

def holdsAlone : Value → Bool
  | .null => false
  | .bool b => b
  | .number n => !n.toDouble.equal ⟨false, 0⟩
  | .string s => s ≠ ""
  | .array items => !items.isEmpty
  | .object members => !members.isEmpty

/-- Numbers are equal when their doubles are; other values when they are the same. -/
def sameValue : Value → Value → Bool
  | .number a, .number b => a.toDouble.equal b.toDouble
  | a, b => a.equal b

def order? : Value → Value → Option Ordering
  | .number a, .number b => some (compareOfLessAndEq a.toDouble.rank b.toDouble.rank)
  | .string a, .string b => some (compareOfLessAndEq a b)
  | _, _ => none

def containsValue : Value → Value → Bool
  | .string text, .string part => Text.holds text part
  | .array items, v => items.any fun item => sameValue item v
  | _, _ => false

def compareValues (op : Comparison) (l r : Value) : Option Bool :=
  match op with
  | .eq => some (sameValue l r)
  | .ne => some (!sameValue l r)
  | .contains => some (containsValue l r)
  | .notContains => some (!containsValue l r)
  | .gt => (order? l r).map (· == .gt)
  | .lt => (order? l r).map (· == .lt)
  | .ge => (order? l r).map (· != .lt)
  | .le => (order? l r).map (· != .gt)

def isPresent (lookup : String → Option Value) (name : String) : Bool :=
  match lookup name with
  | none | some .null => false
  | some _ => true

/-- The truth of a condition. A comparison across types that cannot be ordered is false. -/
def eval (lookup : String → Option Value) : Condition → Bool
  | .always => true
  | .or l r => l.eval lookup || r.eval lookup
  | .and l r => l.eval lookup && r.eval lookup
  | .exists name negated => isPresent lookup name != negated
  | .compare l op r => (compareValues op (l.value lookup) (r.value lookup)).getD false
  | .truthy operand => holdsAlone (operand.value lookup)

end Condition
end Dialogue
