import Dialogue.Number.Decimal
import Dialogue.Number.Literal
/-!
Settings: values given to the fields of a configuration before it is known what a field holds.
Every setting but a group has a text, and those that can be read as a number have one.
-/
namespace Dialogue

inductive Setting where
  | truth (value : Bool)
  | int (value : Int)
  /-- A decimal, perhaps infinite. -/
  | decimal (value : Double)
  | notANumber
  | text (value : String)
  /-- Settings below a key of their own. -/
  | group
deriving DecidableEq

namespace Setting

def isGap (c : Char) : Bool := c == ' ' || c == '\t'

def natOfText? (t : String) : Option Nat :=
  if ["true", "on", "yes"].contains t.toLower then some 1
  else if ["false", "off", "no"].contains t.toLower then some 0
  else
    match t.toList with
    | '-' :: _ => none
    | cs => ((Literal.int? cs).map Int.toNat).filter (· < twoTo 64)

/-- A natural number of some bits. A decimal is rounded, a half away from zero, and cut off at
zero and at 64 bits. -/
def nat? (bits : Nat) (s : Setting) : Option Nat :=
  let value : Option Nat :=
    match s with
    | truth b => some b.toNat
    | int i => if 0 ≤ i then some i.toNat else none
    | decimal x =>
      some (if x.negative then 0 else min (twoTo 64 - 1) (Format.double.round x.magnitude))
    | notANumber => some 0
    | text t => natOfText? t
    | group => none
  value.filter (· < twoTo bits)

def string? : Setting → Option String
  | truth b => some (if b then "true" else "false")
  | int i => some (toString i)
  | decimal x =>
    some (if x.isFinite then x.text ⟨fun _ => true, "", .up⟩
      else if x.negative then "-inf" else "inf")
  | notANumber => some "NaN"
  | text t => some t
  | group => none

def truth? (word : String) : Option Setting :=
  if word = "true" then some (truth true)
  else if word = "false" then some (truth false)
  else none

def limit? (infinite : List String) (cs : List Char) : Option Setting :=
  let (negative, rest) := Literal.sign cs
  let word := String.ofList rest
  if infinite.contains word then some (decimal ⟨negative, Format.double.infinity⟩)
  else if word = "nan" then some notANumber
  else none

def ofText (t : String) : Setting :=
  let number : Option Setting :=
    ((Literal.int? t.toList).filter Literal.isWord).map int
      <|> (Literal.decimal? t.toList).map decimal
      <|> limit? ["inf", "infinity"] t.toLower.toList
  (truth? t.toLower <|> number).getD (text t)

end Setting
end Dialogue
