import Dialogue.Execution.Prompt
import Dialogue.Service
/-!
The edge by which a session leaves a node: the first one whose equations hold, then the first one
that the generator finds the user's words to meet, then the first default one.
-/
namespace Dialogue

open Dialogue.Flow (Node Edge)

variable {σ : Type}

namespace Choice

def holds (vars : Variables) (e : Edge) : Bool :=
  let equations := e.texts .byEquation
  !equations.isEmpty && equations.all vars.satisfies

def question? (vars : Variables) (input : String) (e : Edge) : Option String :=
  match e.texts .byPrompt with
  | [] => none
  | texts => some (Prompt.judge (texts.map vars.interpolate) input)

/-- An answer means yes when it begins so; capital letters and blanks in front do not matter. -/
def isYes (answer : Except String String) : Bool :=
  match answer with
  | .ok answer => "yes".toList.isPrefixOf (Text.trimmed answer).toLower.toList
  | .error _ => false

/-- The first edge whose question is answered with yes. No question is put after that. -/
def judged (s : Services σ) (vars : Variables) (input : String) :
    List Edge → World σ → Option Edge × World σ
  | [], w => (none, w)
  | e :: rest, w =>
    match question? vars input e with
    | none => judged s vars input rest w
    | some question =>
      let (answer, w) := s.ask question none w
      if isYes answer then (some e, w) else judged s vars input rest w

end Choice

def choose (s : Services σ) (n : Node) (input : Option String) (vars : Variables) (w : World σ) :
    Option String × World σ :=
  let edges := n.edgesInOrder
  match edges.find? (Choice.holds vars) with
  | some e => (some e.target, w)
  | none =>
    let (met, w) :=
      match Text.spoken? input with
      | none => (none, w)
      | some input => Choice.judged s vars input edges w
    ((met.or (edges.find? Edge.isDefault)).map Edge.target, w)

end Dialogue
