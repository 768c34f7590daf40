import Dialogue.Table
import Dialogue.Number.Binary
/-! Values of the data format: what variables hold and what documents are written in. -/
namespace Dialogue.Json

/-- A number is whole, from the range of signed and unsigned 64-bit words, or a finite double. -/
inductive Number where
  | int (value : Int)
  | double (value : Double)

/-- A whole number never equals a double here, even of the same value. -/
def Number.equal : Number → Number → Bool
  | .int a, .int b => a == b
  | .double a, .double b => a.equal b
  | _, _ => false

def Number.toDouble : Number → Double
  | .int i => .ofInt .double i
  | .double x => x

inductive Value where
  | null
  | bool (value : Bool)
  | number (value : Number)
  | string (value : String)
  | array (items : List Value)
  | object (members : List (String × Value))

namespace Value

instance : Inhabited Value := ⟨null⟩

def int (i : Int) : Value := number (.int i)

def ofOption {α : Type} (write : α → Value) : Option α → Value
  | none => null
  | some a => write a

def isNull : Value → Bool
  | null => true
  | _ => false

mutual

def equal : Value → Value → Bool
  | null, null => true
  | bool a, bool b => a == b
  | number a, number b => a.equal b
  | string a, string b => a == b
  | array a, array b => equalItems a b
  | object a, object b => equalMembers a b
  | _, _ => false

def equalItems : List Value → List Value → Bool
  | [], [] => true
  | a :: as, b :: bs => a.equal b && equalItems as bs
  | _, _ => false

def equalMembers : List (String × Value) → List (String × Value) → Bool
  | [], [] => true
  | (k, a) :: as, (l, b) :: bs => k == l && a.equal b && equalMembers as bs
  | _, _ => false

end

end Value

/-- A record as it is written out: its members in the order of their declaration, its numbers in
the precision they are kept in. -/
inductive Written where
  | value (v : Value)
  | single (x : Single)
  | list (items : List Written)
  | record (members : List (String × Written))

namespace Written

def string (s : String) : Written := value (.string s)
def bool (b : Bool) : Written := value (.bool b)
def nat (n : Nat) : Written := value (.int n)
def int (i : Int) : Written := value (.int i)
def double (x : Double) : Written := value (.number (.double x))
def table (t : Table Value) : Written := value (.object t)

def optional {α : Type} (name : String) (write : α → Written) : Option α → List (String × Written)
  | none => []
  | some a => [(name, write a)]

mutual

/-- The value that a written record reads as. A number that is not finite is null. -/
def toValue : Written → Value
  | value v => v
  | single x => if x.isFinite then .number (.double (x.convert .double)) else .null
  | list items => .array (toValues items)
  | record members => .object (Table.ofPairs (toMembers members))

def toValues : List Written → List Value
  | [] => []
  | w :: ws => w.toValue :: toValues ws

def toMembers : List (String × Written) → List (String × Value)
  | [] => []
  | (name, w) :: ws => (name, w.toValue) :: toMembers ws

end

end Written
end Dialogue.Json
