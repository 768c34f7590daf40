import Dialogue.Condition.Token
/-!
Conditions: predicates over session variables, joined by AND and, more loosely, by OR. Both
associate to the left; parentheses group.
-/
namespace Dialogue

inductive Operand where
  | variable (name : String)
  | quoted (text : String)
  | bare (text : String)
deriving DecidableEq

/-- A condition; the blank text is the one that always holds. -/
inductive Condition where
  | always
  | or (left right : Condition)
  | and (left right : Condition)
  | exists (name : String) (negated : Bool)
  | compare (left : Operand) (op : Comparison) (right : Operand)
  | truthy (operand : Operand)
deriving DecidableEq

namespace Condition

def Kind.describe : Kind → String
  | .opening => "'('"
  | .closing => "')'"
  | .symbol op => "operator '" ++ op.spelling ++ "'"
  | .variable name => "variable '\x7b\x7b" ++ name ++ "\x7d\x7d'"
  | .quoted text => "literal '" ++ text ++ "'"
  | .word text => "'" ++ text ++ "'"

def Fault.message : Fault → String
  | .unterminatedVariable => "unterminated '\x7b\x7b'"
  | .emptyVariable => "empty variable name"
  | .unterminatedLiteral => "unterminated quoted literal"
  | .unexpectedCharacter found => "unexpected character '" ++ found.toString ++ "'"
  | .unexpected found => "unexpected " ++ found.describe
  | .expectedClosing none => "expected ')'"
  | .expectedClosing (some found) => "expected ')', found " ++ found.describe
  | .expectedOperand none => "expected an operand"
  | .expectedOperand (some found) => "expected an operand, found " ++ found.describe
  | .existsWithoutVariable => "'exists' expects a \x7b\x7bvariable\x7d\x7d"

def ParseError.message (e : ParseError) : String :=
  e.fault.message ++ " (at offset " ++ toString e.offset ++ ")"

namespace Token

def isWord (t : Token) (spelling : String) : Bool :=
  match t.kind with
  | .word text => text == spelling
  | _ => false

def isWordOf (t : Token) (spelling : String) : Bool :=
  match t.kind with
  | .word text => text.toLower == spelling
  | _ => false

end Token

def takeExists? : List Token → Option (Bool × List Token)
  | [] => none
  | t :: rest =>
    if t.isWordOf "exists" then some (false, rest)
    else if t.isWordOf "not_exists" then some (true, rest)
    else if t.isWordOf "not" then
      match rest with
      | u :: rest => if u.isWordOf "exists" then some (true, rest) else none
      | [] => none
    else none

def takeComparison? : List Token → Option (Comparison × List Token)
  | [] => none
  | t :: rest =>
    match t.kind with
    | .symbol op => some (op, rest)
    | _ =>
      if t.isWord "CONTAINS" then some (.contains, rest)
      else if t.isWord "NOT" then
        match rest with
        | u :: rest => if u.isWord "CONTAINS" then some (.notContains, rest) else none
        | [] => none
      else none

def startsKeyword : List Token → Bool
  | [] => false
  | t :: rest =>
    let next (test : Token → Bool) := (rest.head?.map test).getD false
    t.isWord "AND" || t.isWord "OR" || t.isWord "CONTAINS" ||
      t.isWordOf "exists" || t.isWordOf "not_exists" ||
      (t.isWord "NOT" && next (·.isWord "CONTAINS")) ||
      (t.isWordOf "not" && next (·.isWordOf "exists"))

def takeBare : List Token → List String × List Token
  | [] => ([], [])
  | t :: rest =>
    match t.kind with
    | .word text =>
      if startsKeyword (t :: rest) then ([], t :: rest)
      else
        let (texts, after) := takeBare rest
        (text :: texts, after)
    | _ => ([], t :: rest)

abbrev Parse (α : Type) := Except ParseError (α × List Token)

def operand (finish : Nat) : List Token → Parse Operand
  | [] => .error ⟨.expectedOperand none, finish⟩
  | t :: rest =>
    match t.kind with
    | .variable name => .ok (.variable name, rest)
    | .quoted text => .ok (.quoted text, rest)
    | .word text =>
      if startsKeyword (t :: rest) then .error ⟨.expectedOperand (some (.word text)), t.offset⟩
      else
        let (texts, after) := takeBare (t :: rest)
        .ok (.bare (String.intercalate " " texts), after)
    | other => .error ⟨.expectedOperand (some other), t.offset⟩

def predicate (finish : Nat) (ts : List Token) : Parse Condition :=
  match operand finish ts with
  | .error e => .error e
  | .ok (left, rest) =>
    match takeExists? rest, left with
    | some (negated, rest), .variable name => .ok (.exists name negated, rest)
    | some _, _ => .error ⟨.existsWithoutVariable, (ts.head?.map Token.offset).getD finish⟩
    | none, left =>
      match takeComparison? rest with
      | none => .ok (.truthy left, rest)
      | some (op, rest) =>
        match operand finish rest with
        | .error e => .error e
        | .ok (right, rest) => .ok (.compare left op right, rest)

/-- Extends a condition to the left by every `spelling item` that follows. The fuel is the number
of tokens, of which each round takes one or more. -/
def chain (spelling : String) (join : Condition → Condition → Condition)
    (item : List Token → Parse Condition) : Nat → Condition → List Token → Parse Condition
  | 0, left, ts => .ok (left, ts)
  | _ + 1, left, [] => .ok (left, [])
  | fuel + 1, left, t :: rest =>
    if t.isWord spelling then
      match item rest with
      | .error e => .error e
      | .ok (right, rest) => chain spelling join item fuel (join left right) rest
    else .ok (left, t :: rest)

def joined (spelling : String) (join : Condition → Condition → Condition)
    (item : List Token → Parse Condition) (ts : List Token) : Parse Condition :=
  match item ts with
  | .error e => .error e
  | .ok (left, rest) => chain spelling join item rest.length left rest

def factor (finish : Nat) (inner : List Token → Parse Condition) (ts : List Token) :
    Parse Condition :=
  match ts with
  | t :: rest =>
    if t.kind = .opening then
      match inner rest with
      | .error e => .error e
      | .ok (_, []) => .error ⟨.expectedClosing none, finish⟩
      | .ok (condition, u :: rest) =>
        if u.kind = .closing then .ok (condition, rest)
        else .error ⟨.expectedClosing (some u.kind), u.offset⟩
    else predicate finish ts
  | [] => predicate finish ts

def expression (finish : Nat) : Nat → List Token → Parse Condition
  | 0, _ => .error ⟨.expectedOperand none, finish⟩
  | depth + 1, ts =>
    joined "OR" .or (joined "AND" .and (factor finish (expression finish depth))) ts

/-- The condition that a list of tokens spells. There are fewer parentheses than tokens. -/
def ofTokens (ts : List Token) : Except ParseError Condition :=
  match ts with
  | [] => .ok .always
  | ts =>
    let finish := (ts.getLast?.map fun t => t.offset + 1).getD 0
    match expression finish (ts.length + 1) ts with
    | .error e => .error e
    | .ok (condition, []) => .ok condition
    | .ok (_, t :: _) => .error ⟨.unexpected t.kind, t.offset⟩

def ofText (text : String) : Except ParseError Condition :=
  tokens text >>= ofTokens

end Condition
end Dialogue
