import Dialogue.Condition.Expression
import Dialogue.Flow.Node
import Dialogue.Speech.Settings
/-!
Flow documents and what can be wrong with them. A flow is a document without a problem: every
edge, the start and the fallback lead to a node, and no two nodes share an id.
-/
namespace Dialogue.Flow

open Json (Value)

structure Settings where
  systemPrompt : String
  model : String
  temperature : Double
  maxTokens : Nat
  voice : String
  language : String
  /-- The failed turns on one node that make the session leave it. -/
  maxRetries : Nat
  fallback : Option String
  listens : Bool
  /-- Whether the user may speak over the agent. -/
  interruptible : Bool
  speech : Speech.Settings
  initial : Table Value
  errorMessage : String
  handoffMessage : String

def Settings.standard : Settings where
  systemPrompt := "You are a helpful voice assistant."
  model := "gemini-1.5-flash"
  temperature := .ofDecimal .double false 7 (-1)
  maxTokens := 500
  voice := "default"
  language := "en"
  maxRetries := 3
  fallback := none
  listens := true
  interruptible := true
  speech := .standard
  initial := []
  errorMessage := "I'm sorry, something went wrong. Could you say that again?"
  handoffMessage := "I'm sorry, I'm having trouble helping with this. Let's end here for now."

structure Document where
  id : String
  name : String
  version : String
  description : Option String
  settings : Settings
  start : String
  nodes : List Node
  createdAt : Option String
  updatedAt : Option String

/-- What is wrong with a document. The last two are warnings: a flow can run with them. -/
inductive Problem where
  | missingStart
  | unknownStart (id : String)
  | duplicateNode (id : String)
  | danglingEdge (node edge target : String)
  | unknownFallback (id : String)
  | unreadableEquation (node edge message : String)
  | speechSettings (message : String)
deriving DecidableEq

def Problem.message : Problem → String
  | .missingStart => "start_node_id is required"
  | .unknownStart id => "start_node_id '" ++ id ++ "' does not exist in nodes"
  | .duplicateNode id => "node id '" ++ id ++ "' is defined more than once"
  | .danglingEdge node edge target =>
    "node '" ++ node ++ "' has edge '" ++ edge ++ "' to non-existent node '" ++ target ++ "'"
  | .unknownFallback id => "fallback_node_id '" ++ id ++ "' does not exist"
  | .unreadableEquation node edge message =>
    "node '" ++ node ++ "' edge '" ++ edge ++ "' has an invalid equation: " ++ message
  | .speechSettings message => "invalid VAD settings: " ++ message

namespace Document

def ids (d : Document) : List String := d.nodes.map Node.id

def repeated : List String → List String → List String
  | _, [] => []
  | seen, id :: rest => (if id ∈ seen then [id] else []) ++ repeated (id :: seen) rest

def startProblems (d : Document) : List Problem :=
  if d.start = "" then [.missingStart]
  else if d.start ∈ d.ids then []
  else [.unknownStart d.start]

def edgeProblems (d : Document) : List Problem :=
  d.nodes.flatMap fun n =>
    (n.edges.filter fun e => e.target ∉ d.ids).map fun e => .danglingEdge n.id e.id e.target

def fallbackProblems (d : Document) : List Problem :=
  match d.settings.fallback with
  | none => []
  | some id => if id ∈ d.ids then [] else [.unknownFallback id]

def problems (d : Document) : List Problem :=
  (repeated [] d.ids).map .duplicateNode ++ d.startProblems ++ d.edgeProblems ++ d.fallbackProblems

def warnings (d : Document) : List Problem :=
  (d.nodes.flatMap fun n => n.edges.flatMap fun e => (e.texts .byEquation).filterMap fun text =>
    match Condition.ofText text with
    | .ok _ => none
    | .error fault => some (.unreadableEquation n.id e.id fault.message)) ++
  (d.settings.speech.problem?.toList.map fun p => .speechSettings p.message)

end Document
end Dialogue.Flow

namespace Dialogue

/-- A flow that sessions can follow: a document without a problem. -/
structure Flow where
  document : Flow.Document
  sound : document.problems = []

namespace Flow

def ofDocument (d : Document) : Except (List Problem) Flow :=
  if h : d.problems = [] then .ok ⟨d, h⟩ else .error d.problems

def id (f : Flow) : String := f.document.id
def settings (f : Flow) : Settings := f.document.settings
def start (f : Flow) : String := f.document.start
def nodes (f : Flow) : List Node := f.document.nodes

def node? (f : Flow) (id : String) : Option Node :=
  f.nodes.find? fun n => n.id = id

end Flow
end Dialogue
