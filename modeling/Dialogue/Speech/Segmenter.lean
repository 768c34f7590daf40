import Dialogue.Speech.Classifier
/-!
Cutting a stream of frames into utterances. An utterance opens with the first speech frame and
closes when silence has lasted long enough; a little sound around the speech goes with it.
-/
namespace Dialogue.Speech

inductive Phase where
  | silence
  | speaking
  | pause
  | complete
deriving DecidableEq

def Phase.name : Phase → String
  | silence => "silence"
  | speaking => "speaking"
  | pause => "pause"
  | complete => "complete"

/-- Where the stream stands. An open utterance knows the first sample that goes with it, its speech
frames and, in a pause, the samples since the last of them. -/
inductive Activity where
  | silent
  | speaking (onset frames : Nat)
  | pausing (onset frames quiet : Nat)
deriving DecidableEq

def Activity.phase : Activity → Phase
  | silent => .silence
  | speaking .. => .speaking
  | pausing .. => .pause

/-- A closed utterance: its samples, and where in the sound kept at the time they stood. -/
structure Utterance where
  samples : List Int16
  rate : Nat
  start : Nat
  stop : Nat
  speech : Nat
deriving DecidableEq

namespace Utterance

def bytes (u : Utterance) : List UInt8 := Audio.encode u.samples
def duration (u : Utterance) : Double := Audio.duration u.samples.length u.rate
def startTime (u : Utterance) : Double := Audio.duration u.start u.rate
def stopTime (u : Utterance) : Double := Audio.duration u.stop u.rate

def wave (u : Utterance) : List UInt8 := Audio.wave u.bytes (UInt32.ofNat u.rate) 1

end Utterance

/-- What one frame brought. The speech is counted in milliseconds, up to and with this frame. -/
structure Outcome where
  phase : Phase
  isSpeech : Bool
  started : Bool
  utterance : Option Utterance
  discarded : Bool
  speech : Nat

abbrev Hook (η : Type) := η → Except String Unit × η

structure Segmenter (μ η : Type) where
  settings : Settings
  scorer : Scorer μ
  activity : Activity
  /-- The sound since the last utterance, or the end of it. -/
  buffer : Array Int16
  onStart : Option (Hook η)
  onEnd : Option (Hook η)
  hooked : η

namespace Segmenter
variable {μ η : Type}

def create (settings : Settings) (scorer : Scorer μ) (onStart onEnd : Option (Hook η))
    (hooked : η) :
    Except Settings.Problem (Segmenter μ η) :=
  match settings.problem? with
  | some problem => .error problem
  | none => .ok ⟨settings, scorer, .silent, #[], onStart, onEnd, hooked⟩

def phase (s : Segmenter μ η) : Phase := s.activity.phase

def buffered (s : Segmenter μ η) : Double :=
  Audio.duration s.buffer.size s.settings.sampleRate

def reset (s : Segmenter μ η) : Segmenter μ η :=
  { s with activity := .silent, buffer := #[], scorer := s.scorer.reset }

def fire (hook : Option (Hook η)) (hooked : η) : η :=
  match hook with
  | none => hooked
  | some hook => (hook hooked).2

def pad (s : Settings) : Nat :=
  Audio.samplesOf s.padding s.sampleRate

/-- In silence, more than five seconds of sound are cut down to the last half second, or to the
padding where that is longer. -/
def trim (s : Settings) (buffer : Array Int16) : Array Int16 :=
  let size := buffer.size
  if size * 1000 ≤ 5000 * s.sampleRate then buffer
  else buffer.extract (size - Audio.samplesOf (max 500 s.padding) s.sampleRate) size

def close (s : Settings) (buffer : Array Int16) (onset frames quiet : Nat) : Option Utterance :=
  if frames < s.minFrames then none
  else
    let stop := min (buffer.size - quiet + pad s) buffer.size
    some
      { samples := (buffer.extract onset stop).toList
        rate := s.sampleRate
        start := onset
        stop
        speech := frames * s.frameDuration }

def hear (s : Segmenter μ η) (frame : List Int16) : Segmenter μ η :=
  { s with buffer := s.buffer ++ frame }

def advance (s : Segmenter μ η) (isSpeech : Bool) (frame : List Int16) :
    Outcome × Segmenter μ η :=
  let onset := s.buffer.size - pad s.settings
  let s := s.hear frame
  let settings := s.settings
  let speechOf (frames : Nat) := frames * settings.frameDuration
  let goOn (activity : Activity) (frames : Nat) : Outcome × Segmenter μ η :=
    (⟨activity.phase, isSpeech, false, none, false, speechOf frames⟩, { s with activity })
  let pausing (onset frames quiet : Nat) : Outcome × Segmenter μ η :=
    if quiet < Audio.samplesOf settings.endSilence settings.sampleRate then
      goOn (.pausing onset frames quiet) frames
    else
      let utterance := close settings s.buffer onset frames quiet
      let hooked := if utterance.isSome then fire s.onEnd s.hooked else s.hooked
      (⟨.complete, isSpeech, false, utterance, utterance.isNone, speechOf frames⟩,
        { s.reset with hooked })
  match s.activity, isSpeech with
  | .silent, true =>
    (⟨.speaking, true, true, none, false, speechOf 1⟩,
      { s with activity := .speaking onset 1, hooked := fire s.onStart s.hooked })
  | .silent, false =>
    (⟨.silence, false, false, none, false, 0⟩, { s with buffer := trim settings s.buffer })
  | .speaking onset frames, true => goOn (.speaking onset (frames + 1)) (frames + 1)
  | .pausing onset frames _, true => goOn (.speaking onset (frames + 1)) (frames + 1)
  | .speaking onset frames, false => pausing onset frames frame.length
  | .pausing onset frames quiet, false => pausing onset frames (quiet + frame.length)

def process (s : Segmenter μ η) (frame : List UInt8) : Outcome × Segmenter μ η :=
  let samples := Audio.decode frame
  let (isSpeech, scorer) := s.scorer.judge s.settings samples
  advance { s with scorer } isSpeech samples

end Segmenter
end Dialogue.Speech
