import Dialogue.Cascade
/-!
The engine: it holds the flows and the services, and takes sessions through the flows, by text or
by sound. Nothing that happens in a turn is an error of the engine; it is told in the result.
-/
namespace Dialogue

open Json (Value)

structure Engine (σ : Type) where
  config : Config
  flows : Table Flow
  services : Services σ

structure Summary where
  id : String
  name : String
  version : String
  nodes : Nat
  start : String
  listens : Bool
deriving DecidableEq

def Flow.summary (f : Flow) : Summary :=
  ⟨f.id, f.document.name, f.document.version, f.nodes.length, f.start, f.settings.listens⟩

namespace Engine
variable {σ μ : Type}

def addFlow (e : Engine σ) (f : Flow) : Engine σ := { e with flows := e.flows.insert f.id f }

def register (e : Engine σ) (name : String) (function : Function σ) : Engine σ :=
  { e with services := { e.services with functions := e.services.functions.insert name function } }

def flow? (e : Engine σ) (id : String) : Option Flow := e.flows.get? id

/-- A session at the start of a flow. Detection of speech that its settings rule out is left
off. -/
def create (e : Engine σ) (flow session : String) (initial : Table Value) :
    Except Fault (Session μ) :=
  match e.flow? flow with
  | none => .error (.unknownFlow flow)
  | some f =>
    let vars := (Variables.ofInitial f.settings.initial).setAll initial "initial"
    let segmenter :=
      if f.settings.listens then
        (Speech.Segmenter.create f.settings.speech .energy none none ()).toOption
      else none
    .ok ⟨f.id, session, ⟨f.start, vars, [], 0, false, none⟩, segmenter, .idle, none⟩

def currentNode (e : Engine σ) (s : Session μ) : Option Flow.Node :=
  (e.flow? s.flow).bind fun f => f.node? s.talk.node

def ended : Result :=
  { Result.ofKind .ended with text := some "The conversation has ended.", waits := false }

def stage (e : Engine σ) (f : Flow) (s : Session μ) : Stage σ :=
  ⟨e.services, e.config, f, s.id⟩

def play (e : Engine σ) (f : Flow) (s : Session μ) (input : Option String) (w : World σ) :
    Result × Session μ × World σ :=
  let (r, talk, w) := (e.stage f s).run input s.talk w
  (r, { s with talk }, w)

def start (e : Engine σ) (s : Session μ) (w : World σ) : Result × Session μ × World σ :=
  if s.talk.complete then (ended, s, w)
  else
    match e.flow? s.flow with
    | none => (.ofFault (.unknownFlow s.flow), s, w)
    | some f => e.play f s none (e.services.tell (.entered s.id none s.talk.node) w)

def hear (e : Engine σ) (s : Session μ) (text : String) (metadata : Table Value) (w : World σ) :
    Result × Session μ × World σ :=
  if s.talk.complete then (ended, s, w)
  else
    match e.flow? s.flow with
    | none => (.ofFault (.unknownFlow s.flow), s, w)
    | some f =>
      let talk := s.talk.add ⟨.user, text, s.talk.node, metadata⟩
      e.play f { s with talk } (some text) w

def takeText (e : Engine σ) (s : Session μ) (text : String) (w : World σ) :
    Result × Session μ × World σ :=
  e.hear s text [] w

def facts (u : Speech.Utterance) : Table Value :=
  [("audio_bytes", .int (2 * u.samples.length)), ("speech_duration_ms", .int u.speech)]

def misheard (e : Engine σ) (f : Flow) (s : Session μ) (message : String) (w : World σ) :
    Result × Session μ × World σ :=
  let text := f.settings.errorMessage
  let node := s.talk.node
  let fault := Fault.transcription (Speech.transcriptionMessage message)
  ({ Result.ofFault fault with text := some text },
    { s with talk := s.talk.add ⟨.agent, text, node, []⟩ },
    e.services.tell (.said s.id node text) w)

/-- Takes an utterance: it is transcribed and taken as text, or parked where no one transcribes. -/
def takeUtterance (e : Engine σ) (f : Flow) (s : Session μ) (u : Speech.Utterance) (w : World σ) :
    Option Result × Session μ × World σ :=
  match e.services.transcriber with
  | none =>
    (some { Result.ofKind .waiting with metadata := facts u }, { s with parked := some u }, w)
  | some transcriber =>
    let language := if f.settings.language = "" then e.config.language else f.settings.language
    let (heard, state) :=
      transcriber.transcribe u.bytes u.rate e.config.channels language w.state
    let w := { w with state }
    match heard with
    | .ok none => (none, s, w)
    | .ok (some text) =>
      let (r, s, w) := e.hear s text (facts u) w
      (some r, s, w)
    | .error message =>
      let (r, s, w) := e.misheard f s message w
      (some r, s, w)

def bargeIn (e : Engine σ) (f : Flow) (s : Session μ) (started : Bool) (w : World σ) :
    Session μ × World σ :=
  if started && f.settings.interruptible && s.playback.playing then
    ({ s with playback := s.playback.interrupt }, e.services.tell (.interrupted s.id) w)
  else (s, w)

/-- Takes a frame of sound; there is a result only when something comes of it. -/
def takeFrame (e : Engine σ) (s : Session μ) (frame : List UInt8) (w : World σ) :
    Option Result × Session μ × World σ :=
  if s.talk.complete then (none, s, w)
  else
    match e.flow? s.flow with
    | none => (some (.ofFault (.unknownFlow s.flow)), s, w)
    | some f =>
      match s.segmenter, f.settings.listens with
      | some segmenter, true =>
        let (outcome, segmenter) := segmenter.process frame
        let (s, w) := e.bargeIn f { s with segmenter := some segmenter } outcome.started w
        match outcome.utterance with
        | none => (none, s, w)
        | some u => e.takeUtterance f s u w
      | _, _ => (some (.ofFault .notListening), s, w)

end Engine
end Dialogue
