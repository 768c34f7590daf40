import Dialogue.Json.Value
/-! Nodes of a flow: what a session does at a place, and the edges by which it leaves. -/
namespace Dialogue.Flow

open Json (Value)

inductive Judged where
  | byEquation
  | byPrompt
deriving DecidableEq

structure Requirement where
  judged : Judged
  text : String
  description : Option String
deriving DecidableEq

/-- A way to another node. A lower priority is tried first. -/
structure Edge where
  id : String
  target : String
  requirements : List Requirement
  isDefault : Bool
  priority : Int
deriving DecidableEq

def Edge.texts (e : Edge) (judged : Judged) : List String :=
  (e.requirements.filter fun r => r.judged = judged).map Requirement.text

structure Example where
  user : String
  agent : String
deriving DecidableEq

structure Conversation where
  instruction : String
  /-- The variables read off the user's words. -/
  extracted : List String
  template : Option String
  /-- Whether the node speaks as soon as it is entered. -/
  speaksFirst : Bool
  examples : List Example
deriving DecidableEq

structure Call where
  function : String
  parameters : Table Value
  /-- The variable that takes the result. -/
  result : Option String
  pendingMessage : Option String
  successMessage : Option String
  failureMessage : Option String

structure Ending where
  message : String
  reason : String
deriving DecidableEq

structure Transfer where
  message : String
  destination : Option String
  reason : String
deriving DecidableEq

structure Wanted where
  name : String
  description : String
  type : String
deriving DecidableEq

structure Extraction where
  wanted : List Wanted
  prompt : Option String
deriving DecidableEq

inductive NodeKind where
  | conversation (node : Conversation)
  | call (node : Call)
  | split
  | ending (node : Ending)
  | transfer (node : Transfer)
  | extraction (node : Extraction)

structure Node where
  id : String
  name : String
  description : Option String
  edges : List Edge
  /-- The model used here in place of the flow's. -/
  model : Option String
  temperature : Option Double
  kind : NodeKind

def Conversation.standard : Conversation := ⟨"", [], none, true, []⟩
def Call.standard : Call := ⟨"", [], none, none, none, none⟩
def Ending.standard : Ending := ⟨"Thank you for using our service. Goodbye!", "completed"⟩
def Transfer.standard : Transfer :=
  ⟨"Let me connect you with a human agent.", none, "user_request"⟩
def Extraction.standard : Extraction := ⟨[], none⟩

namespace NodeKind

def name : NodeKind → String
  | conversation _ => "conversation"
  | call _ => "function"
  | split => "logic_split"
  | ending _ => "end"
  | transfer _ => "transfer"
  | extraction _ => "extract_variable"

def standard : List NodeKind :=
  [conversation .standard, call .standard, split, ending .standard, transfer .standard,
    extraction .standard]

def isFinal : NodeKind → Bool
  | ending _ | transfer _ => true
  | _ => false

end NodeKind

namespace Node

def ofKind (id : String) (kind : NodeKind) : Node :=
  ⟨id, "", none, [], none, none, kind⟩

def addEdge (n : Node) (e : Edge) : Node := { n with edges := n.edges ++ [e] }

/-- The edges in the order in which they are tried: by priority, then as they are listed. -/
def edgesInOrder (n : Node) : List Edge :=
  n.edges.mergeSort fun a b => decide (a.priority ≤ b.priority)

end Node
end Dialogue.Flow
