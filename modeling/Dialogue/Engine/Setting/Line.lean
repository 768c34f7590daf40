import Dialogue.Engine.Setting.Quoted
/-!
Lines of a configuration file: a key, an equals sign and a value, or nothing; behind either a
comment may follow. A value is a whole number, a decimal, a truth value or a string in quotes.
-/
namespace Dialogue.Setting.Line

open Quoted (isPlain)

def isNameChar (c : Char) : Bool :=
  c.isAlphanum || c == '_' || c == '-'

def isEnd (cs : List Char) : Bool :=
  match cs.dropWhile isGap with
  | [] => true
  | c :: comment => c == '#' && comment.all isPlain

def isGrouped (digits : List Char) : Bool :=
  (digits.splitOn '_').all (!·.isEmpty)

/-- Grouped digits in which zero leads no other one. -/
def isWhole (digits : List Char) : Bool :=
  isGrouped digits && (digits.head? != some '0' || digits.length == 1)

def int? (cs : List Char) : Option Int :=
  let based (base : Nat) (digits : List Char) : Option Int :=
    if isGrouped digits then (Literal.inBase? base (digits.filter (· != '_'))).map Int.ofNat
    else none
  let value : Option Int :=
    match cs with
    | '0' :: 'x' :: digits => based 16 digits
    | '0' :: 'o' :: digits => based 8 digits
    | '0' :: 'b' :: digits => based 2 digits
    | cs =>
      if isWhole (Literal.sign cs).2 then Literal.int? (cs.filter (· != '_')) else none
  value.filter Literal.isWord

def decimal? (cs : List Char) : Option Double :=
  let (mantissa, exponent) := cs.span fun c => c != 'e' && c != 'E'
  let (whole, fraction) := mantissa.span (· != '.')
  let marked := !fraction.isEmpty || !exponent.isEmpty
  let isFraction := fraction.isEmpty || isGrouped (fraction.drop 1)
  let isExponent := exponent.isEmpty || isGrouped (Literal.sign (exponent.drop 1)).2
  if marked && isWhole (Literal.sign whole).2 && isFraction && isExponent then
    Literal.double? (cs.filter (· != '_'))
  else none

def bare? (cs : List Char) : Option Setting :=
  truth? (String.ofList cs) <|> (int? cs).map .int <|> (decimal? cs).map .decimal
    <|> limit? ["inf"] cs

def value? (cs : List Char) : Option Setting :=
  match cs.head? with
  | some '"' | some '\'' =>
    match Quoted.string? cs with
    | some (body, rest) => if isEnd rest then some (.text (String.ofList body)) else none
    | none => none
  | _ =>
    let (word, rest) := cs.span fun c => !isGap c && c != '#'
    if isEnd rest then bare? word else none

structure Key where
  first : List Char
  below : List (List Char)
deriving DecidableEq

def Key.covers (k other : Key) : Bool :=
  k.first == other.first && k.below.isPrefixOf other.below

def name? (cs : List Char) : Option (List Char × List Char) :=
  match cs with
  | '"' :: rest => Quoted.short? '"' rest
  | '\'' :: rest => Quoted.short? '\'' rest
  | cs =>
    let (name, rest) := cs.span isNameChar
    if name.isEmpty then none else some (name, rest)

/-- The key at the front, of so many names at most and with points between them, and what follows
it behind a gap. -/
def key? : Nat → List Char → Option (Key × List Char)
  | 0, _ => none
  | limit + 1, cs => do
    let (name, rest) ← name? (cs.dropWhile isGap)
    match rest.dropWhile isGap with
    | '.' :: rest =>
      let (key, rest) ← key? limit rest
      some (⟨name, key.first :: key.below⟩, rest)
    | rest => some (⟨name, []⟩, rest)

def maxNames : Nat := 79

def assignment? (cs : List Char) : Option (Key × List Char) :=
  match key? maxNames cs with
  | some (key, '=' :: rest) => some (key, rest.dropWhile isGap)
  | _ => none

def read? (cs : List Char) : Option (Option (Key × Setting)) :=
  if isEnd cs then some none
  else
    match assignment? cs with
    | some (key, rest) => (value? rest).map fun value => some (key, value)
    | none => none

def isOpen (cs : List Char) : Bool :=
  (assignment? cs).any fun (_, rest) => Quoted.isOpen rest

/-- What lines set, in their order. A line that ends within a string goes on in the next one. -/
def readAll? (lines : List (List Char)) : Option (List (Key × Setting)) :=
  match lines with
  | [] => some []
  | [line] => (read? line).map Option.toList
  | line :: next :: rest =>
    if isOpen line then readAll? ((line ++ '\n' :: next) :: rest)
    else do
      let set ← read? line
      let more ← readAll? (next :: rest)
      some (set.toList ++ more)
termination_by lines.length
decreasing_by all_goals simp only [List.length_cons]; omega

end Dialogue.Setting.Line
