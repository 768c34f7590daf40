import Dialogue.Service
import Dialogue.Speech.Playback
import Dialogue.Speech.Segmenter
import Dialogue.Variables
/-! A session: where a conversation stands, and the sound that belongs to it. -/
namespace Dialogue

open Json (Value)

inductive Role where
  | user
  | agent
deriving DecidableEq

def Role.name : Role → String
  | user => "user"
  | agent => "agent"

structure Turn where
  role : Role
  text : String
  node : String
  metadata : Table Value

structure Talk where
  node : String
  vars : Variables
  turns : List Turn
  /-- The turns that have failed on the node. -/
  retries : Nat
  complete : Bool
  /-- Why the conversation is over. -/
  ended : Option String

namespace Talk

def add (t : Talk) (turn : Turn) : Talk := { t with turns := t.turns ++ [turn] }

def close (t : Talk) (reason : String) : Talk := { t with complete := true, ended := some reason }

def recent (t : Talk) (window : Nat) : List Message :=
  (t.turns.drop (t.turns.length - window)).map fun turn => ⟨turn.role.name, turn.text⟩

end Talk

/-- A conversation in a flow, the detection of speech on it, the playback of the agent's words and
an utterance that waits to be fetched. -/
structure Session (μ : Type) where
  flow : String
  id : String
  talk : Talk
  segmenter : Option (Speech.Segmenter μ Unit)
  playback : Playback.Handle
  parked : Option Speech.Utterance

namespace Session
variable {μ : Type}

def takeUtterance (s : Session μ) : Option Speech.Utterance × Session μ :=
  (s.parked, { s with parked := none })

def install (s : Session μ) (model : Speech.Model μ) (state : μ) :
    Except Speech.Settings.Problem (Session μ) :=
  let settings := (s.segmenter.map Speech.Segmenter.settings).getD .standard
  (Speech.Segmenter.create settings (.model model state) none none ()).map fun segmenter =>
    { s with segmenter := some segmenter }

end Session
end Dialogue
