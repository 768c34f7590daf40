import Dialogue.Number.Binary
/-!
Decimal text of binary numbers: the fewest digits that read back as the number, of those the
nearest, and a layout that says where the point and the exponent go.
-/
namespace Dialogue

structure Decimal where
  digits : Nat
  exponent : Int
deriving DecidableEq

inductive Tie where
  | toEven
  | up
deriving DecidableEq

structure Layout where
  /-- Whether the number is written without an exponent, by the place of its first digit. -/
  positional : Int → Bool
  /-- What follows a whole number. -/
  wholeSuffix : String
  tie : Tie

namespace Decimal

/-- Of the two decimals of this exponent next to a magnitude, the nearest that reads back as it. -/
def beside (f : Format) (tie : Tie) (magnitude : Nat) (exponent : Int) : Option Decimal :=
  let dividend := f.units magnitude * tenTo (-exponent).toNat
  let divisor := twoTo f.scale * tenTo exponent.toNat
  let low := dividend / divisor
  let twice := 2 * (dividend % divisor)
  let reads (digits : Nat) := f.ofDecimal digits exponent = magnitude
  let lowFirst :=
    twice < divisor ∨ (twice = divisor ∧ tie = .toEven ∧ low % 2 = 0)
  if reads low ∧ (lowFirst ∨ ¬ reads (low + 1)) then some ⟨low, exponent⟩
  else if reads (low + 1) then some ⟨low + 1, exponent⟩
  else none

def top (f : Format) (magnitude : Nat) : Int :=
  ((f.units magnitude).log2 + 1 - (f.scale : Int)) * 30103 / 100000 + 2

/-- The decimal with the fewest digits that reads back as the magnitude. Exponents are tried
downwards; at minus the scale of the format the value itself is a decimal. -/
def shortest (f : Format) (tie : Tie) (magnitude : Nat) : Decimal :=
  let start := top f magnitude
  let exponents := (List.range (start + f.scale + 1).toNat).map fun i : Nat => start - (i : Int)
  (exponents.findSome? (beside f tie magnitude)).getD ⟨0, 0⟩

def digitChars (n : Nat) : List Char :=
  Nat.toDigits 10 n

def text (layout : Layout) (d : Decimal) : String :=
  let digits := digitChars d.digits
  let count : Int := digits.length
  let place := d.exponent + count - 1
  let zeros (n : Int) := List.replicate n.toNat '0'
  let chars : List Char :=
    if layout.positional place then
      if 0 ≤ d.exponent then digits ++ zeros d.exponent ++ layout.wholeSuffix.toList
      else if 0 ≤ place then
        digits.take (place + 1).toNat ++ ['.'] ++ digits.drop (place + 1).toNat
      else ['0', '.'] ++ zeros (-place - 1) ++ digits
    else
      let fraction := if digits.length = 1 then [] else '.' :: digits.drop 1
      let sign := if place < 0 then '-' else '+'
      digits.take 1 ++ fraction ++ ['e', sign] ++ digitChars place.natAbs
  String.ofList chars

end Decimal

def Binary.text {f : Format} (layout : Layout) (x : Binary f) : String :=
  let sign := if x.negative then "-" else ""
  let body :=
    if x.magnitude = 0 then Decimal.text layout ⟨0, 0⟩
    else Decimal.text layout (Decimal.shortest f layout.tie x.magnitude)
  sign ++ body

end Dialogue
