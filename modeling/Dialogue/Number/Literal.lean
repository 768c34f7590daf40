import Dialogue.Number.Binary
/-! Reading numbers that people write: whole ones, and decimals with a point or an exponent. -/
namespace Dialogue.Literal

def sign : List Char → Bool × List Char
  | '-' :: rest => (true, rest)
  | '+' :: rest => (false, rest)
  | cs => (false, cs)

def ofDigits (cs : List Char) : Nat :=
  cs.foldl (fun n c => 10 * n + (c.toNat - '0'.toNat)) 0

def digit? (base : Nat) (c : Char) : Option Nat :=
  let value : Option Nat :=
    if c.isDigit then some (c.toNat - '0'.toNat)
    else if 'a' ≤ c ∧ c ≤ 'f' then some (c.toNat - 'a'.toNat + 10)
    else if 'A' ≤ c ∧ c ≤ 'F' then some (c.toNat - 'A'.toNat + 10)
    else none
  value.filter (· < base)

def inBase? (base : Nat) (cs : List Char) : Option Nat :=
  cs.foldlM (fun n c => (digit? base c).map (base * n + ·)) 0

def int? (cs : List Char) : Option Int :=
  let (negative, ds) := sign cs
  if ds.isEmpty || !ds.all Char.isDigit then none
  else some (if negative then -(ofDigits ds : Int) else ofDigits ds)

def isWord (i : Int) : Bool :=
  -(twoTo 63 : Int) ≤ i && i < twoTo 63

def exponent? : List Char → Option Int
  | [] => some 0
  | c :: rest => if c = 'e' ∨ c = 'E' then int? rest else none

/-- A decimal: a sign or none, digits around a point or without one, an exponent or none. Beyond
the largest finite double it is infinite. -/
def decimal? (cs : List Char) : Option Double := do
  let (negative, rest) := sign cs
  let before := rest.takeWhile Char.isDigit
  let rest := rest.dropWhile Char.isDigit
  let (behind, rest) :=
    match rest with
    | '.' :: rest => (rest.takeWhile Char.isDigit, rest.dropWhile Char.isDigit)
    | rest => ([], rest)
  if before.isEmpty && behind.isEmpty then none
  else
    let exponent ← exponent? rest
    let digits := ofDigits (before ++ behind)
    some (Binary.ofDecimal .double negative digits (exponent - behind.length))

def double? (cs : List Char) : Option Double :=
  (decimal? cs).filter Binary.isFinite

end Dialogue.Literal
