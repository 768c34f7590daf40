import Dialogue.Execution.Choice
import Dialogue.Execution.Extraction
import Dialogue.Flow.Document
/-!
Executing a node: each kind has its own way to speak, to write variables and to choose the next
node. What fails becomes a result.
-/
namespace Dialogue

open Json (Value)
open Dialogue.Flow (Node Conversation Call Extraction Wanted)

variable {σ : Type}

structure Surroundings where
  session : String
  settings : Flow.Settings
  history : List Message

abbrev Run (σ : Type) := Result × Variables × World σ

namespace Run

def context (around : Surroundings) (n : Node) : Context where
  systemPrompt := around.settings.systemPrompt
  history := around.history
  model := n.model.getD around.settings.model
  temperature := n.temperature.getD around.settings.temperature
  maxTokens := around.settings.maxTokens

/-- The variables that a conversation reads off the user's words. A failure yields none. -/
def extractAll (s : Services σ) (c : Conversation) (input : Option String) (w : World σ) :
    Table Value × World σ :=
  match input with
  | none => ([], w)
  | some input =>
    if c.extracted.isEmpty then ([], w)
    else
      let (reply, w) := s.ask (Prompt.extractAll c.extracted input) none w
      match reply with
      | .ok reply => (Dialogue.Extraction.ofReply c.extracted reply, w)
      | .error _ => ([], w)

def conversation (s : Services σ) (around : Surroundings) (n : Node) (c : Conversation)
    (input : Option String) (vars : Variables) (w : World σ) : Run σ :=
  if input.isNone && c.speaksFirst then
    let text := vars.interpolate (c.template.getD c.instruction)
    ({ Result.ofKind .response with text := some text }, vars, w)
  else
    let (extracted, w) := extractAll s c input w
    let vars := vars.setAll (s.listing w.state extracted).entries n.id
    let (reply, w) := s.ask (Prompt.reply vars c input) (some (context around n)) w
    match reply with
    | .error e => (.ofFault (.generation e), vars, w)
    | .ok reply =>
      let (next, w) := choose s n input vars w
      ({ Result.ofKind .response with
          text := some (Text.trimmed reply)
          next, extracted
          waits := next.isNone }, vars, w)

def parameters (vars : Variables) (c : Call) : Table Value :=
  c.parameters.map fun (name, v) =>
    match v with
    | .string text => (name, .string (vars.interpolate text))
    | v => (name, v)

def returned (s : Services σ) (n : Node) (c : Call) (notes : Table Value) (v : Value)
    (vars : Variables) (w : World σ) : Run σ :=
  let (extracted, vars) : Table Value × Variables :=
    match c.result with
    | none => ([], vars)
    | some name => ([(name, v)], vars.set name v n.id)
  let text := c.successMessage.map (vars.interpolateWith [("result", v)])
  let (next, w) := choose s n none vars w
  (⟨if text.isSome then .response else .goOn, text, next, extracted, false, none,
    notes.insert "function_result" v⟩, vars, w)

def apology (vars : Variables) (c : Call) (fault : Fault) : Option String :=
  match c.failureMessage, fault with
  | some text, _ => some (vars.interpolate text)
  | none, .function _ message => some ("Sorry, I encountered an error: " ++ message)
  | none, _ => none

def announce (s : Services σ) (around : Surroundings) (n : Node) (c : Call) (vars : Variables)
    (w : World σ) : Table Value × World σ :=
  match c.pendingMessage with
  | none => ([], w)
  | some pending =>
    let text := vars.interpolate pending
    ([("pending_message", .string text)], s.tell (.said around.session n.id text) w)

def call (s : Services σ) (around : Surroundings) (n : Node) (c : Call) (vars : Variables)
    (w : World σ) : Run σ :=
  let failed (fault : Fault) (notes : Table Value) : Result :=
    { Result.ofFault fault with text := apology vars c fault, metadata := notes }
  if s.functions.contains c.function then
    let (notes, w) := announce s around n c vars w
    match s.call c.function (parameters vars c) w with
    | (.ok v, w) => returned s n c notes v vars w
    | (.error fault, w) => (failed fault notes, vars, w)
  else (failed (.functionNotFound c.function) [], vars, w)

def extractEach (s : Services σ) (node : String) (preamble : Option String) (input : String) :
    List Wanted → Table Value → Variables → World σ → Table Value × Variables × World σ
  | [], extracted, vars, w => (extracted, vars, w)
  | wanted :: rest, extracted, vars, w =>
    let (reply, w) := s.ask (Prompt.extractOne preamble wanted input) none w
    match reply.toOption.bind (Dialogue.Extraction.coerce? wanted.type) with
    | none => extractEach s node preamble input rest extracted vars w
    | some v =>
      extractEach s node preamble input rest (extracted.insert wanted.name v)
        (vars.set wanted.name v node) w

def extraction (s : Services σ) (n : Node) (x : Extraction) (input : Option String)
    (vars : Variables) (w : World σ) : Run σ :=
  match Text.spoken? input with
  | none => (.ofKind .waiting, vars, w)
  | some input =>
    let preamble := x.prompt.map vars.interpolate
    let (extracted, vars, w) := extractEach s n.id preamble input x.wanted [] vars w
    let (next, w) := choose s n (some input) vars w
    ({ Result.ofKind .goOn with next, extracted, waits := false }, vars, w)

end Run

def execute (s : Services σ) (around : Surroundings) (n : Node) (input : Option String)
    (vars : Variables) (w : World σ) : Run σ :=
  match n.kind with
  | .conversation c => Run.conversation s around n c input vars w
  | .call c => Run.call s around n c vars w
  | .split =>
    let (next, w) := choose s n none vars w
    ({ Result.ofKind .goOn with next, waits := false }, vars, w)
  | .ending e =>
    ({ Result.ofKind .ended with
        text := some (vars.interpolate e.message)
        waits := false
        metadata := [("end_reason", .string e.reason)] }, vars, w)
  | .transfer t =>
    ({ Result.ofKind .transferred with
        text := some (vars.interpolate t.message)
        waits := false
        metadata := [("destination", Value.ofOption .string t.destination),
          ("transfer_reason", .string t.reason)] }, vars, w)
  | .extraction x => Run.extraction s n x input vars w

end Dialogue
