import Dialogue.Speech.Audio
import Dialogue.Speech.Settings
/-!
Telling speech from silence, frame by frame: by energy, or by a model behind an energy filter. A
model that fails once is set aside for good.
-/
namespace Dialogue.Speech

/-- A model of speech with a state of its own: the probability that samples at a rate are speech,
and a fresh start between utterances. -/
structure Model (μ : Type) where
  score : List Int16 → Nat → μ → Except String Single × μ
  reset : μ → μ

inductive Scorer (μ : Type) where
  | energy
  | model (model : Model μ) (state : μ)
  | retired (state : μ)

variable {μ : Type}

namespace Scorer

def usesModel : Scorer μ → Bool
  | model .. => true
  | _ => false

def state? : Scorer μ → Option μ
  | energy => none
  | model _ state | retired state => some state

def reset : Scorer μ → Scorer μ
  | model m state => model m (m.reset state)
  | other => other

end Scorer

namespace Settings

def isLoud (s : Settings) (energy : Single) : Bool :=
  s.energyThreshold.twice < energy

def isQuiet (s : Settings) (energy : Single) : Bool :=
  s.energyFilter && decide (energy ≤ s.energyThreshold)

end Settings

def Scorer.judge (s : Settings) (scorer : Scorer μ) (samples : List Int16) : Bool × Scorer μ :=
  let energy := Audio.energy samples
  if s.isQuiet energy then (false, scorer)
  else
    match scorer with
    | .model m state =>
      match m.score samples s.sampleRate state with
      | (.ok probability, state) => (decide (s.threshold ≤ probability), .model m state)
      | (.error _, state) => (s.isLoud energy, .retired state)
    | other => (s.isLoud energy, other)

end Dialogue.Speech
