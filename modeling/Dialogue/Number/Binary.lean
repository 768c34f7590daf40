import Dialogue.Number.Power
/-!
Binary floating numbers as exact data: a sign and the bit pattern of the magnitude. A pattern
counts whole units, the least positive number of the format being one unit.
-/
namespace Dialogue

structure Format where
  precision : Nat
  exponentBits : Nat
deriving DecidableEq

namespace Format

def double : Format := ⟨53, 11⟩
def single : Format := ⟨24, 8⟩

/-- One unit of the format is two to the minus this many. -/
def scale (f : Format) : Nat :=
  twoTo (f.exponentBits - 1) + f.precision - 3

def infinity (f : Format) : Nat :=
  (twoTo f.exponentBits - 1) * twoTo (f.precision - 1)

def units (f : Format) (pattern : Nat) : Nat :=
  let hidden := twoTo (f.precision - 1)
  match pattern / hidden with
  | 0 => pattern
  | exponent + 1 => (hidden + pattern % hidden) * twoTo exponent

def roundEven (dividend divisor : Nat) : Nat :=
  let floor := dividend / divisor
  let twice := 2 * (dividend % divisor)
  if twice > divisor ∨ (twice = divisor ∧ floor % 2 = 1) then floor + 1 else floor

def nearest (f : Format) (dividend divisor : Nat) : Nat :=
  let inUnits := dividend * twoTo f.scale
  let exponent := (inUnits / divisor).log2 + 1 - f.precision
  min f.infinity
    (exponent * twoTo (f.precision - 1) + roundEven inUnits (divisor * twoTo exponent))

/-- The pattern nearest to a decimal number. The two tests on the exponent spare large powers:
past them the number is above the largest finite one, or below half a unit. -/
def ofDecimal (f : Format) (digits : Nat) (exponent : Int) : Nat :=
  if digits = 0 then 0
  else if exponent > twoTo f.exponentBits then f.infinity
  else if exponent + digits.log2 + 1 < -(twoTo f.exponentBits : Int) then 0
  else f.nearest (digits * tenTo exponent.toNat) (tenTo (-exponent).toNat)

def mul (f : Format) (a b : Nat) : Nat :=
  f.nearest (f.units a * f.units b) (twoTo (2 * f.scale))

def round (f : Format) (pattern : Nat) : Nat :=
  (2 * f.units pattern + twoTo f.scale) / twoTo (f.scale + 1)

def div (f : Format) (a b : Nat) : Nat :=
  f.nearest (f.units a) (f.units b)

end Format

structure Binary (f : Format) where
  negative : Bool
  magnitude : Nat
deriving DecidableEq

abbrev Double := Binary .double
abbrev Single := Binary .single

namespace Binary
variable {f : Format}

def isFinite (x : Binary f) : Bool :=
  x.magnitude < f.infinity

/-- The place of a number in the order of its format, the same for both zeros. -/
def rank (x : Binary f) : Int :=
  if x.negative then -x.magnitude else x.magnitude

def equal (x y : Binary f) : Bool :=
  x.rank == y.rank

/-- Patterns beyond that of infinity stand for no number. -/
def isNumber (x : Binary f) : Bool :=
  x.magnitude ≤ f.infinity

-- What is no number is neither above nor below anything, itself included.
instance : LE (Binary f) :=
  ⟨fun x y => x.isNumber = true ∧ y.isNumber = true ∧ x.rank ≤ y.rank⟩

instance : LT (Binary f) :=
  ⟨fun x y => x.isNumber = true ∧ y.isNumber = true ∧ x.rank < y.rank⟩

instance (x y : Binary f) : Decidable (x ≤ y) :=
  inferInstanceAs (Decidable (x.isNumber = true ∧ y.isNumber = true ∧ x.rank ≤ y.rank))

instance (x y : Binary f) : Decidable (x < y) :=
  inferInstanceAs (Decidable (x.isNumber = true ∧ y.isNumber = true ∧ x.rank < y.rank))

def ofInt (f : Format) (i : Int) : Binary f :=
  ⟨decide (i < 0), f.nearest i.natAbs 1⟩

def ofDecimal (f : Format) (negative : Bool) (digits : Nat) (exponent : Int) : Binary f :=
  ⟨negative, f.ofDecimal digits exponent⟩

def convert (g : Format) (x : Binary f) : Binary g :=
  ⟨x.negative, if x.isFinite then g.nearest (f.units x.magnitude) (twoTo f.scale) else g.infinity⟩

/-- Twice the number; the largest ones have infinity for it. -/
def twice (x : Binary f) : Binary f :=
  ⟨x.negative,
    if x.isFinite then f.nearest (2 * f.units x.magnitude) (twoTo f.scale) else x.magnitude⟩

end Binary
end Dialogue
