import Dialogue.Json.Value
import Dialogue.Number.Decimal
/-! The text of values and of written records: compact, or indented by two blanks. -/
namespace Dialogue.Json

/-- Doubles are positional from the fifth place behind the point to the sixteenth before it. -/
def doubleLayout : Layout := ⟨fun place => -5 ≤ place ∧ place ≤ 15, ".0", .toEven⟩

def singleLayout : Layout := ⟨fun place => -6 ≤ place ∧ place ≤ 12, ".0", .toEven⟩

def Number.text : Number → String
  | .int i => toString i
  | .double x => x.text doubleLayout

def hexDigit (n : Nat) : Char :=
  Nat.digitChar (n % 16)

def escape (c : Char) : List Char :=
  if c = '"' then ['\\', '"']
  else if c = '\\' then ['\\', '\\']
  else if c = '\x08' then ['\\', 'b']
  else if c = '\x0c' then ['\\', 'f']
  else if c = '\n' then ['\\', 'n']
  else if c = '\r' then ['\\', 'r']
  else if c = '\t' then ['\\', 't']
  else if c.toNat < 32 then ['\\', 'u', '0', '0', hexDigit (c.toNat / 16), hexDigit c.toNat]
  else [c]

def quote (s : String) : String :=
  "\"" ++ String.ofList (s.toList.flatMap escape) ++ "\""

inductive Spread where
  | compact
  | indented
deriving DecidableEq

namespace Spread

def container (spread : Spread) (opening closing : String) (depth : Nat) (parts : List String) :
    String :=
  let line (d : Nat) := "\n" ++ String.ofList (List.replicate (2 * d) ' ')
  match spread, parts with
  | _, [] => opening ++ closing
  | .compact, parts => opening ++ String.intercalate "," parts ++ closing
  | .indented, parts =>
    opening ++ line (depth + 1) ++ String.intercalate ("," ++ line (depth + 1)) parts ++
      line depth ++ closing

def array (spread : Spread) (depth : Nat) (items : List String) : String :=
  spread.container "[" "]" depth items

def object (spread : Spread) (depth : Nat) (members : List String) : String :=
  spread.container "\x7b" "\x7d" depth members

def member (spread : Spread) (name text : String) : String :=
  quote name ++ (if spread = .indented then ": " else ":") ++ text

end Spread

namespace Value
mutual

def textAt (spread : Spread) (depth : Nat) : Value → String
  | null => "null"
  | bool b => if b then "true" else "false"
  | number n => n.text
  | string s => quote s
  | array items => spread.array depth (itemTexts spread (depth + 1) items)
  | object members => spread.object depth (memberTexts spread (depth + 1) members)

def itemTexts (spread : Spread) (depth : Nat) : List Value → List String
  | [] => []
  | v :: vs => v.textAt spread depth :: itemTexts spread depth vs

def memberTexts (spread : Spread) (depth : Nat) : List (String × Value) → List String
  | [] => []
  | (name, v) :: vs => spread.member name (v.textAt spread depth) :: memberTexts spread depth vs

end

def text (v : Value) : String := v.textAt .compact 0

def display : Value → String
  | string s => s
  | v => v.text

end Value

namespace Written
mutual

def textAt (spread : Spread) (depth : Nat) : Written → String
  | value v => v.textAt spread depth
  | single x => if x.isFinite then x.text singleLayout else "null"
  | list items => spread.array depth (itemTexts spread (depth + 1) items)
  | record members => spread.object depth (memberTexts spread (depth + 1) members)

def itemTexts (spread : Spread) (depth : Nat) : List Written → List String
  | [] => []
  | w :: ws => w.textAt spread depth :: itemTexts spread depth ws

def memberTexts (spread : Spread) (depth : Nat) : List (String × Written) → List String
  | [] => []
  | (name, w) :: ws => spread.member name (w.textAt spread depth) :: memberTexts spread depth ws

end

def text (spread : Spread) (w : Written) : String := w.textAt spread 0

end Written
end Dialogue.Json
