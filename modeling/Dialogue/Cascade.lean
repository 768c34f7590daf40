import Dialogue.Engine.Config
import Dialogue.Execution.Run
import Dialogue.Session
/-!
A turn: the node of a session is executed, and the nodes that it leads to without a word of the
user. Failures are counted on the node where they happen; too many of them lead to the fallback or
to the end, and so do too many transitions.
-/
namespace Dialogue

variable {σ : Type}

structure Stage (σ : Type) where
  services : Services σ
  config : Config
  flow : Flow
  session : String

/-- How far a turn has come: the conversation, what the agent has said in the turn, the world. -/
structure Scene (σ : Type) where
  talk : Talk
  spoken : List String
  world : World σ

inductive Step (σ : Type) where
  | done (result : Result) (scene : Scene σ)
  | goOn (scene : Scene σ)

namespace Result

def joined (r : Result) (spoken : List String) : Result :=
  if spoken.isEmpty then r else { r with text := some (String.intercalate " " spoken) }

end Result

namespace Scene

def record (sc : Scene σ) (node text : String) : Scene σ :=
  { sc with talk := sc.talk.add ⟨.agent, text, node, []⟩, spoken := sc.spoken ++ [text] }

def counted (sc : Scene σ) : Scene σ :=
  { sc with talk := { sc.talk with retries := sc.talk.retries + 1 } }

def closed (sc : Scene σ) (reason : String) : Scene σ :=
  { sc with talk := sc.talk.close reason }

def finish (sc : Scene σ) (r : Result) : Step σ := .done (r.joined sc.spoken) sc

end Scene

namespace Stage

def say (st : Stage σ) (node : String) (text : Option String) (sc : Scene σ) : Scene σ :=
  match Text.spoken? text with
  | none => sc
  | some text =>
    let sc := sc.record node text
    { sc with world := st.services.tell (.said st.session node text) sc.world }

def move (st : Stage σ) (target : String) (sc : Scene σ) : Scene σ :=
  { sc with
    talk := { sc.talk with node := target, retries := 0 }
    world := st.services.tell (.entered st.session (some sc.talk.node) target) sc.world }

def handOff (st : Stage σ) (fault : Fault) (reason : String) (sc : Scene σ) : Result × Scene σ :=
  let sc := (st.say sc.talk.node (some st.flow.settings.handoffMessage) sc).closed reason
  let result : Result :=
    { Result.ofFault fault with waits := false, metadata := [("end_reason", .string reason)] }
  (result.joined sc.spoken, sc)

def conclude (st : Stage σ) (node : String) (r : Result) (sc : Scene σ) : Step σ :=
  ((st.say node r.text sc).closed r.endReason).finish r

def fallback? (st : Stage σ) : Option String :=
  st.flow.settings.fallback.filter fun id => (st.flow.node? id).isSome

def excuse (st : Stage σ) (node : String) (r : Result) (sc : Scene σ) : Scene σ :=
  if r.text.isNone then st.say node (some st.flow.settings.errorMessage) sc else sc

/-- A failed turn: the user may try again until the retries are spent. -/
def retry (st : Stage σ) (node : String) (r : Result) (sc : Scene σ) : Step σ :=
  let limit := st.flow.settings.maxRetries
  let sc := st.say node r.text sc.counted
  if sc.talk.retries < limit then (st.excuse node r sc).finish { r with waits := true }
  else
    match st.fallback? with
    | some target => .goOn (st.move target sc)
    | none =>
      let (result, sc) := st.handOff (.retriesExhausted node limit) "max_retries" sc
      .done result sc

def follow (st : Stage σ) (node : String) (r : Result) (sc : Scene σ) : Step σ :=
  let sc := st.say node r.text sc
  match r.next with
  | none => sc.finish r
  | some target =>
    if (st.flow.node? target).isNone then sc.finish (.ofFault (.nodeNotFound target))
    else
      let sc := st.move target sc
      if r.waits then sc.finish r else .goOn sc

def executed (st : Stage σ) (n : Flow.Node) (input : Option String) (sc : Scene σ) :
    Result × Scene σ :=
  let around : Surroundings := ⟨st.session, st.flow.settings, sc.talk.recent st.config.window⟩
  let (r, vars, world) := execute st.services around n input sc.talk.vars sc.world
  let sc : Scene σ :=
    { sc with talk := { sc.talk with vars }, world := world.note (.ran n.id input r) }
  match r.note? "pending_message" with
  | some text => (r, sc.record n.id text)
  | none => (r, sc)

def settle (st : Stage σ) (node : String) (r : Result) (sc : Scene σ) : Step σ :=
  if r.isFinal then st.conclude node r sc
  else if r.isStuck then st.retry node r sc
  else st.follow node r sc

def step (st : Stage σ) (input : Option String) (sc : Scene σ) : Step σ :=
  match st.flow.node? sc.talk.node with
  | none => sc.finish (.ofFault (.nodeNotFound sc.talk.node))
  | some n =>
    let (r, sc) := st.executed n input sc
    st.settle n.id r sc

/-- A turn with so many transitions left. Only its first node hears the user. -/
def drive (st : Stage σ) : Nat → Option String → Scene σ → Result × Scene σ
  | left, input, sc =>
    match st.step input sc with
    | .done r sc => (r, sc)
    | .goOn sc =>
      match left with
      | 0 => st.handOff (.continuationLimit st.config.continuations) "continuation_limit" sc
      | left + 1 => drive st left none sc

def run (st : Stage σ) (input : Option String) (talk : Talk) (w : World σ) :
    Result × Talk × World σ :=
  let (r, sc) := st.drive st.config.continuations input ⟨talk, [], w⟩
  (r, sc.talk, sc.world)

end Stage
end Dialogue
