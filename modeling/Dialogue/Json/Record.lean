import Dialogue.Json.Value
/-!
Reading records from values. A member that is absent takes its default; one that is present has
to be of its type, and unknown members are passed over.
-/
namespace Dialogue.Json

abbrev Decode (α : Type) := Value → Option α

namespace Decode

def string : Decode String
  | .string s => some s
  | _ => none

def bool : Decode Bool
  | .bool b => some b
  | _ => none

def int (low high : Int) : Decode Int
  | .number (.int i) => if low ≤ i ∧ i ≤ high then some i else none
  | _ => none

def nat (bits : Nat) (v : Value) : Option Nat :=
  (int 0 (twoTo bits - 1) v).map Int.toNat

def binary (f : Format) : Decode (Binary f)
  | .number (.int i) => some (.ofInt f i)
  | .number (.double x) => some (x.convert f)
  | _ => none

def double : Decode Double
  | .number n => some n.toDouble
  | _ => none

def list {α : Type} (item : Decode α) : Decode (List α)
  | .array items => items.mapM item
  | _ => none

def object : Decode (Table Value)
  | .object members => some members
  | _ => none

def optional {α : Type} (decode : Decode α) : Decode (Option α)
  | .null => some none
  | v => (decode v).map some

/-- The members of a record, written by name or in the order of the given names. A list of values
may stop early, but not go on past the last name. -/
def record (names : List String) : Decode (Table Value)
  | .object members => some members
  | .array items => if items.length ≤ names.length then some (names.zip items) else none
  | _ => none

end Decode

def member {α : Type} (members : Table Value) (name : String) (default : α) (decode : Decode α) :
    Option α :=
  match members.get? name with
  | none => some default
  | some v => decode v

def optionalMember {α : Type} (members : Table Value) (name : String) (decode : Decode α) :
    Option (Option α) :=
  member members name none (Decode.optional decode)

end Dialogue.Json
