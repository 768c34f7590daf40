import Dialogue.Json.Value
/-! What comes of executing a node or of a whole turn, and what can go wrong in it. -/
namespace Dialogue

open Json (Value)

inductive Fault where
  | unknownFlow (id : String)
  | nodeNotFound (id : String)
  | generation (message : String)
  | transcription (message : String)
  | functionNotFound (name : String)
  | function (name message : String)
  | retriesExhausted (node : String) (limit : Nat)
  | continuationLimit (limit : Nat)
  | notListening
deriving DecidableEq

def Fault.message : Fault → String
  | unknownFlow id => "no flow loaded with id '" ++ id ++ "'"
  | nodeNotFound id => "node not found: " ++ id
  | generation message => "generation failed: " ++ message
  | transcription message => "transcription failed: " ++ message
  | functionNotFound name => "function not found: " ++ name
  | function name message => "function '" ++ name ++ "' failed: " ++ message
  | retriesExhausted node limit =>
    "retry budget of " ++ toString limit ++ " exhausted on node '" ++ node ++ "'"
  | continuationLimit limit =>
    "more than " ++ toString limit ++ " automatic transitions in one turn"
  | notListening => "voice activity detection is not enabled for this session"

/-- The kind of a result: something is said, nothing is said, the conversation is over or handed to
a person, something failed, or the user has to speak first. -/
inductive ResultKind where
  | response
  | goOn
  | ended
  | transferred
  | failed
  | waiting
deriving DecidableEq

structure Result where
  kind : ResultKind
  text : Option String
  next : Option String
  /-- The variables read off the user's words or a function. -/
  extracted : Table Value
  waits : Bool
  fault : Option Fault
  metadata : Table Value

namespace Result

def ofKind (kind : ResultKind) : Result := ⟨kind, none, none, [], true, none, []⟩

def ofFault (fault : Fault) : Result := { ofKind .failed with fault := some fault }

/-- Whether the turn cannot go on from here: the node failed, or no way leads on and the user is
not waited for. -/
def isStuck (r : Result) : Bool :=
  r.kind = .failed || (r.next.isNone && !r.waits)

def isFinal (r : Result) : Bool :=
  r.kind = .ended || r.kind = .transferred

def fails (r : Result) : Bool := !r.isFinal && r.isStuck

def note? (r : Result) (name : String) : Option String :=
  match r.metadata.get? name with
  | some (.string s) => some s
  | _ => none

def endReason (r : Result) : String :=
  if r.kind = .ended then (r.note? "end_reason").getD "completed" else "transfer"

end Result
end Dialogue
