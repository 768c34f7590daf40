import Dialogue.Result
import Dialogue.Speech.Transcription
/-!
What a session calls upon: a generator of text, functions, a transcriber, observers. They share a
state of their own, of which nothing is assumed; all that passes between them and the session is
journalled.
-/
namespace Dialogue

open Json (Value)

structure Message where
  role : String
  content : String
deriving DecidableEq

structure Context where
  systemPrompt : String
  history : List Message
  model : String
  temperature : Double
  maxTokens : Nat
deriving DecidableEq

inductive Event where
  | entered (session : String) (source : Option String) (target : String)
  | said (session node text : String)
  | interrupted (session : String)
deriving DecidableEq

/-- An observer may fail, which nobody minds. -/
abbrev Observer (σ : Type) := Event → σ → Except String Unit × σ

abbrev Function (σ : Type) := Table Value → σ → Except String Value × σ

structure Listing (map : Table Value) where
  entries : List (String × Value)
  perm : entries.Perm map

def Listing.asListed (map : Table Value) : Listing map := ⟨map, .refl map⟩

structure Services (σ : Type) where
  generate : String → Option Context → σ → Except String String × σ
  functions : Table (Function σ)
  transcriber : Option (Speech.Transcriber σ)
  observers : List (Observer σ)
  /-- The order in which a hash map is gone through. It may be another one each time. -/
  listing : σ → (map : Table Value) → Listing map := fun _ => .asListed

/-- What happened, in order: a prompt was put to the generator, a function was called, an event was
told, a node was executed. -/
inductive Entry where
  | asked (prompt : String) (context : Option Context)
  | called (function : String) (parameters : Table Value)
  | told (event : Event)
  | ran (node : String) (input : Option String) (result : Result)

structure World (σ : Type) where
  state : σ
  journal : List Entry

variable {σ : Type}

namespace World

def events (w : World σ) : List Event :=
  w.journal.filterMap fun entry => match entry with | .told e => some e | _ => none

def note (w : World σ) (entry : Entry) : World σ :=
  { w with journal := w.journal ++ [entry] }

end World

namespace Services

def ask (s : Services σ) (prompt : String) (context : Option Context) (w : World σ) :
    Except String String × World σ :=
  let (answer, state) := s.generate prompt context w.state
  (answer, World.note { w with state } (.asked prompt context))

def call (s : Services σ) (name : String) (parameters : Table Value) (w : World σ) :
    Except Fault Value × World σ :=
  match s.functions.get? name with
  | none => (.error (.functionNotFound name), w)
  | some function =>
    let (answer, state) := function parameters w.state
    (answer.mapError (.function name), World.note { w with state } (.called name parameters))

def notify (observers : List (Observer σ)) (event : Event) (state : σ) : σ :=
  observers.foldl (fun state observer => (observer event state).2) state

def tell (s : Services σ) (event : Event) (w : World σ) : World σ :=
  World.note { w with state := notify s.observers event w.state } (.told event)

end Services

namespace Observer

def silent : Observer σ := fun _ state => (.ok (), state)

def failing (message : String) : Observer σ := fun _ state => (.error message, state)

def channel : Observer (List Event) := fun event events => (.ok (), events ++ [event])

def within {α : Type} (get : σ → α) (set : α → σ → σ) (o : Observer α) : Observer σ :=
  fun event state =>
    let (result, part) := o event (get state)
    (result, set part state)

end Observer
end Dialogue
