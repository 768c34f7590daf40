import Dialogue.Json.Record
import Dialogue.Number.Decimal
/-! The settings of speech detection, their record and their limits. -/
namespace Dialogue.Speech

open Json (Value Written Decode member)

/-- Durations are in milliseconds, thresholds between nothing and one. -/
structure Settings where
  threshold : Single
  minSpeech : Nat
  endSilence : Nat
  maxPause : Nat
  padding : Nat
  sampleRate : Nat
  frameDuration : Nat
  energyFilter : Bool
  energyThreshold : Single
deriving DecidableEq

namespace Settings

/-- Half is enough for speech, and a hundredth of full scale is more than silence. -/
def standard : Settings where
  threshold := .ofDecimal .single false 5 (-1)
  minSpeech := 250
  endSilence := 500
  maxPause := 800
  padding := 100
  sampleRate := 24000
  frameDuration := 30
  energyFilter := true
  energyThreshold := .ofDecimal .single false 1 (-2)

def names : List String :=
  ["vad_threshold", "min_speech_duration_ms", "silence_threshold_ms", "max_pause_duration_ms",
    "speech_pad_ms", "sample_rate", "frame_duration_ms", "energy_filter_enabled",
    "energy_threshold"]

def ofMembers (ms : Table Value) : Option Settings := do
  let number (name : String) (default : Nat) := member ms name default (Decode.nat 32)
  let threshold ← member ms "vad_threshold" standard.threshold (Decode.binary .single)
  let minSpeech ← number "min_speech_duration_ms" standard.minSpeech
  let endSilence ← number "silence_threshold_ms" standard.endSilence
  let maxPause ← number "max_pause_duration_ms" standard.maxPause
  let padding ← number "speech_pad_ms" standard.padding
  let sampleRate ← number "sample_rate" standard.sampleRate
  let frameDuration ← number "frame_duration_ms" standard.frameDuration
  let energyFilter ← member ms "energy_filter_enabled" standard.energyFilter Decode.bool
  let energyThreshold ←
    member ms "energy_threshold" standard.energyThreshold (Decode.binary .single)
  some ⟨threshold, minSpeech, endSilence, maxPause, padding, sampleRate, frameDuration,
    energyFilter, energyThreshold⟩

def ofValue (v : Value) : Option Settings :=
  Decode.record names v >>= ofMembers

def toMembers (s : Settings) : List (String × Written) :=
  [("vad_threshold", .single s.threshold),
    ("min_speech_duration_ms", .nat s.minSpeech),
    ("silence_threshold_ms", .nat s.endSilence),
    ("max_pause_duration_ms", .nat s.maxPause),
    ("speech_pad_ms", .nat s.padding),
    ("sample_rate", .nat s.sampleRate),
    ("frame_duration_ms", .nat s.frameDuration),
    ("energy_filter_enabled", .bool s.energyFilter),
    ("energy_threshold", .single s.energyThreshold)]

def toWritten (s : Settings) : Written := .record s.toMembers

def minFrames (s : Settings) : Nat :=
  s.minSpeech / max s.frameDuration 1

inductive Problem where
  | sampleRate
  | frameDuration
  | threshold (value : Single)
  | energyThreshold (value : Single)
deriving DecidableEq

def problem? (s : Settings) : Option Problem :=
  let zero : Single := ⟨false, 0⟩
  if s.sampleRate = 0 then some .sampleRate
  else if s.frameDuration = 0 then some .frameDuration
  else if ¬ (zero ≤ s.threshold ∧ s.threshold ≤ .ofInt .single 1) then some (.threshold s.threshold)
  else if s.energyThreshold < zero then some (.energyThreshold s.energyThreshold)
  else none

/-- Messages write numbers without an exponent, whole ones without a point. -/
def plain (x : Single) : String :=
  if x.isFinite then x.text ⟨fun _ => true, "", .up⟩
  else if x.negative then "-inf" else "inf"

def Problem.message : Problem → String
  | .sampleRate => "Configuration error: sample_rate must be positive"
  | .frameDuration => "Configuration error: frame_duration_ms must be positive"
  | .threshold x => "Configuration error: vad_threshold must be within 0.0..=1.0, got " ++ plain x
  | .energyThreshold x =>
    "Configuration error: energy_threshold must not be negative, got " ++ plain x

end Settings
end Dialogue.Speech
