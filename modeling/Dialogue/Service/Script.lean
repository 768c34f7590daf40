import Dialogue.Service
/-! A generator that answers by rules: the first one whose pattern the prompt holds. -/
namespace Dialogue

/-- A rule with a limit answers only so many prompts. -/
structure Rule where
  pattern : String
  reply : Except String String
  limit : Option Nat

structure Script where
  rules : List Rule
  default : String
  prompts : List String

namespace Script

def applies (prompt : String) (r : Rule) : Bool :=
  r.limit ≠ some 0 && Text.holds prompt r.pattern

def use (prompt : String) : List Rule → List Rule
  | [] => []
  | r :: rest =>
    if applies prompt r then { r with limit := r.limit.map (· - 1) } :: rest
    else r :: use prompt rest

def answer (prompt : String) (s : Script) : Except String String × Script :=
  let reply :=
    match s.rules.find? (applies prompt) with
    | some r => r.reply
    | none => .ok s.default
  (reply, { s with rules := use prompt s.rules, prompts := s.prompts ++ [prompt] })

def count (s : Script) (pattern : String) : Nat :=
  s.prompts.countP fun prompt => Text.holds prompt pattern

end Script
end Dialogue
