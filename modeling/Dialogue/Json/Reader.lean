import Dialogue.Json.Value
import Dialogue.Number.Literal
/-!
Reading text in the data format: strict grammar, nothing after the value, containers nested at
most 127 deep. A reader takes characters from the front and leaves the rest.
-/
namespace Dialogue.Json.Reader

def skip : List Char → List Char
  | [] => []
  | c :: rest => if c = ' ' ∨ c = '\t' ∨ c = '\n' ∨ c = '\r' then skip rest else c :: rest

def word : List Char → List Char → Option (List Char)
  | [], cs => some cs
  | w :: ws, c :: cs => if w = c then word ws cs else none
  | _ :: _, [] => none

def hexFour (a b c d : Char) : Option Nat :=
  Literal.inBase? 16 [a, b, c, d]

def escaped (c : Char) : Option Char :=
  if c = '"' ∨ c = '\\' ∨ c = '/' then some c
  else if c = 'b' then some '\x08'
  else if c = 'f' then some '\x0c'
  else if c = 'n' then some '\n'
  else if c = 'r' then some '\r'
  else if c = 't' then some '\t'
  else none

/-- The characters of a string behind its opening quote. A character beyond 16 bits is escaped
as a pair of surrogates; a surrogate alone is refused. -/
def stringBody : List Char → Option (List Char × List Char)
  | [] => none
  | '"' :: rest => some ([], rest)
  | '\\' :: 'u' :: a :: b :: c :: d :: rest => do
    let code ← hexFour a b c d
    if code < 0xD800 ∨ 0xE000 ≤ code then do
      let (body, rest) ← stringBody rest
      some (Char.ofNat code :: body, rest)
    else if 0xDC00 ≤ code then none
    else
      match rest with
      | '\\' :: 'u' :: e :: f :: g :: h :: rest => do
        let low ← hexFour e f g h
        if 0xDC00 ≤ low ∧ low < 0xE000 then do
          let (body, rest) ← stringBody rest
          some (Char.ofNat (0x10000 + (code - 0xD800) * 0x400 + (low - 0xDC00)) :: body, rest)
        else none
      | _ => none
  | '\\' :: c :: rest => do
    let c ← escaped c
    let (body, rest) ← stringBody rest
    some (c :: body, rest)
  | c :: rest =>
    if c.toNat < 32 ∨ c = '\\' then none
    else do
      let (body, rest) ← stringBody rest
      some (c :: body, rest)

def digits (cs : List Char) : List Nat × List Char :=
  ((cs.takeWhile Char.isDigit).map fun c => c.toNat - '0'.toNat, cs.dropWhile Char.isDigit)

def gather : Nat → List Nat → Nat × List Nat
  | n, [] => (n, [])
  | n, d :: ds => if 10 * n + d < twoTo 64 then gather (10 * n + d) ds else (n, d :: ds)

/-- A magnitude divided by ten to a power, in steps of at most 308 places. -/
def scaleDown (magnitude places : Nat) : Nat :=
  let power (n : Nat) := Format.double.nearest (tenTo n) 1
  if magnitude = 0 then 0
  else if places ≤ 308 then Format.double.div magnitude (power places)
  else scaleDown (Format.double.div magnitude (power 308)) (places - 308)
termination_by places

/-- A significand at a power of ten: rounded to a double, then once more by the power. Beyond the
largest finite double there is none. -/
def scaled (significand : Nat) (exponent : Int) : Option Nat :=
  let start := Format.double.nearest significand 1
  if exponent < 0 then some (scaleDown start exponent.natAbs)
  else if start = 0 then some 0
  else if exponent > 308 then none
  else
    let product := Format.double.mul start (Format.double.nearest (tenTo exponent.toNat) 1)
    if product < Format.double.infinity then some product else none

def exponentPart (cs : List Char) : Option (Option Int × List Char) :=
  match cs with
  | c :: rest =>
    if c = 'e' ∨ c = 'E' then
      let (negative, rest) := Literal.sign rest
      match digits rest with
      | ([], _) => none
      | (ds, rest) =>
        let size : Nat := ds.foldl (fun n d => 10 * n + d) 0
        some (some (if negative then -(size : Int) else size), rest)
    else some (none, cs)
  | [] => some (none, cs)

def fractionPart (cs : List Char) : Option (Option (List Nat) × List Char) :=
  match cs with
  | '.' :: rest =>
    match digits rest with
    | ([], _) => none
    | (ds, rest) => some (some ds, rest)
  | _ => some (none, cs)

def whole (negative : Bool) (n : Nat) : Option Int :=
  if negative then if 0 < n ∧ n ≤ twoTo 63 then some (-n) else none
  else if n < twoTo 64 then some n else none

/-- The number of the digits before the point, those behind it and the exponent: a whole one where
it can be, otherwise a double. -/
def ofParts? (negative : Bool) (before : List Nat) (fraction : Option (List Nat))
    (exponent : Option Int) : Option Number :=
  let (n, beyond) := gather 0 before
  let double (significand : Nat) (exponent : Int) : Option Number :=
    (scaled significand exponent).map fun magnitude => .double ⟨negative, magnitude⟩
  match fraction, exponent with
  | none, none =>
    match beyond, whole negative n with
    | [], some i => some (.int i)
    | _, _ => double n beyond.length
  | fraction, exponent =>
    let behind := fraction.getD []
    let (n, unread) := gather n behind
    double n (beyond.length - ((behind.length - unread.length : Nat) : Int) + exponent.getD 0)

/-- A number without its sign. No zero stands in front of another digit. -/
def unsigned (negative : Bool) (cs : List Char) : Option (Number × List Char) := do
  let (before, rest) := digits cs
  if before = [] ∨ (before.head? = some 0 ∧ 1 < before.length) then none
  else
    let (fraction, rest) ← fractionPart rest
    let (exponent, rest) ← exponentPart rest
    let n ← ofParts? negative before fraction exponent
    some (n, rest)

def number : List Char → Option (Number × List Char)
  | '-' :: rest => unsigned true rest
  | cs => unsigned false cs

mutual

/-- A value in at most the given containers. The fuel bounds the steps and is never spent on a
text of half its length. -/
def value : Nat → Nat → List Char → Option (Value × List Char)
  | 0, _, _ => none
  | fuel + 1, depth, cs =>
    match skip cs with
    | [] => none
    | c :: rest =>
      if c = 'n' then (word ['u', 'l', 'l'] rest).map (.null, ·)
      else if c = 't' then (word ['r', 'u', 'e'] rest).map (.bool true, ·)
      else if c = 'f' then (word ['a', 'l', 's', 'e'] rest).map (.bool false, ·)
      else if c = '"' then
        (stringBody rest).map fun (body, rest) => (.string (String.ofList body), rest)
      else if c = '[' then
        match depth, skip rest with
        | 0, _ => none
        | _ + 1, ']' :: rest => some (.array [], rest)
        | depth + 1, rest => (items fuel depth rest).map fun (vs, rest) => (.array vs, rest)
      else if c = '\x7b' then
        match depth, skip rest with
        | 0, _ => none
        | _ + 1, '\x7d' :: rest => some (.object [], rest)
        | depth + 1, rest =>
          (members fuel depth rest).map fun (ms, rest) => (.object (Table.ofPairs ms), rest)
      else (number (c :: rest)).map fun (n, rest) => (.number n, rest)

def items : Nat → Nat → List Char → Option (List Value × List Char)
  | 0, _, _ => none
  | fuel + 1, depth, cs => do
    let (v, rest) ← value fuel depth cs
    match skip rest with
    | ']' :: rest => some ([v], rest)
    | ',' :: rest => do
      let (vs, rest) ← items fuel depth rest
      some (v :: vs, rest)
    | _ => none

def members : Nat → Nat → List Char → Option (List (String × Value) × List Char)
  | 0, _, _ => none
  | fuel + 1, depth, cs =>
    match skip cs with
    | '"' :: rest => do
      let (name, rest) ← stringBody rest
      match skip rest with
      | ':' :: rest => do
        let (v, rest) ← value fuel depth rest
        match skip rest with
        | '\x7d' :: rest => some ([(String.ofList name, v)], rest)
        | ',' :: rest => do
          let (ms, rest) ← members fuel depth rest
          some ((String.ofList name, v) :: ms, rest)
        | _ => none
      | _ => none
    | _ => none

end

end Reader

def Value.ofText? (text : String) : Option Value :=
  let cs := text.toList
  match Reader.value (2 * cs.length + 2) 127 cs with
  | some (v, rest) => if Reader.skip rest = [] then some v else none
  | none => none

end Dialogue.Json
