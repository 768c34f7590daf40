import Dialogue.Proofs.Counters
/-!
What a segmenter has its scorer do: pass a verdict on each frame, and start afresh at each reset and
behind each frame that closes an utterance. The scorer alone comes to the same verdicts.
-/
namespace Dialogue.Speech

variable {μ η : Type}

def Signal.isFrame : Signal → Bool
  | frame _ => true
  | reset => false

namespace Scorer

def take (s : Settings) (scorer : Scorer μ) : Signal → Scorer μ
  | .frame bytes => (scorer.judge s (Audio.decode bytes)).2
  | .reset => scorer.reset

def after (s : Settings) (scorer : Scorer μ) (signals : List Signal) : Scorer μ :=
  signals.foldl (take s) scorer

def verdicts (s : Settings) (scorer : Scorer μ) : List Signal → List Bool
  | [] => []
  | .frame bytes :: rest =>
    let judged := scorer.judge s (Audio.decode bytes)
    judged.1 :: verdicts s judged.2 rest
  | .reset :: rest => verdicts s scorer.reset rest

theorem after_append (s : Settings) (scorer : Scorer μ) (before later : List Signal) :
    scorer.after s (before ++ later) = (scorer.after s before).after s later :=
  List.foldl_append

/-- What both kinds of signal keep is kept by a run. -/
theorem after_keeps {P : Scorer μ → Prop} {s : Settings}
    (judge : ∀ scorer samples, P scorer → P (scorer.judge s samples).2)
    (reset : ∀ scorer, P scorer → P scorer.reset) {scorer : Scorer μ} (h : P scorer)
    (signals : List Signal) : P (scorer.after s signals) := by
  induction signals generalizing scorer with
  | nil => exact h
  | cons signal rest ih =>
    cases signal with
    | frame bytes => exact ih (judge scorer _ h)
    | reset => exact ih (reset scorer h)

theorem judge_rejected {s : Settings} {samples : List Int16}
    (quiet : s.isQuiet (Audio.energy samples) = true) (scorer : Scorer μ) :
    scorer.judge s samples = (false, scorer) := if_pos quiet

section
variable {s : Settings} {samples : List Int16}
  (passed : s.isQuiet (Audio.energy samples) = false)
include passed

theorem judge_answered {m : Model μ} {state : μ} {p : Single}
    (answer : (m.score samples s.sampleRate state).1 = .ok p) :
    (model m state).judge s samples =
      (decide (s.threshold ≤ p), model m (m.score samples s.sampleRate state).2) := by
  simp only [judge, passed, Bool.false_eq_true, if_false]
  split
  · next answer' asked =>
    rw [asked] at answer ⊢
    cases answer
    rfl
  · next asked =>
    rw [asked] at answer
    cases answer

theorem judge_fails {m : Model μ} {state : μ} {message : String}
    (answer : (m.score samples s.sampleRate state).1 = .error message) :
    (model m state).judge s samples =
      (s.isLoud (Audio.energy samples), retired (m.score samples s.sampleRate state).2) := by
  simp only [judge, passed, Bool.false_eq_true, if_false]
  split
  · next asked =>
    rw [asked] at answer
    cases answer
  · next asked => rw [asked]

end

section
variable {scorer : Scorer μ} (unused : scorer.usesModel = false)
include unused

theorem judge_alone {s : Settings} {samples : List Int16}
    (passed : s.isQuiet (Audio.energy samples) = false) :
    scorer.judge s samples = (s.isLoud (Audio.energy samples), scorer) := by
  cases scorer with
  | model => cases unused
  | energy | retired => simp [judge, passed]

/-- Without a model in use, energy passes the verdict and nothing changes. -/
theorem judge_unused (s : Settings) (samples : List Int16) :
    scorer.judge s samples = (((energy : Scorer μ).judge s samples).1, scorer) := by
  cases quiet : s.isQuiet (Audio.energy samples) with
  | true => rw [judge_rejected quiet, judge_rejected quiet]
  | false => rw [judge_alone unused quiet, judge_alone rfl quiet]

theorem reset_unused : scorer.reset = scorer := by
  cases scorer with
  | model => cases unused
  | energy | retired => rfl

theorem after_unused (s : Settings) (signals : List Signal) :
    scorer.after s signals = scorer := by
  refine after_keeps (P := (· = scorer)) (fun other samples same => ?_) (fun other same => ?_) rfl
    signals
  · rw [same, judge_unused unused]
  · rw [same, reset_unused unused]

theorem verdicts_unused (s : Settings) (signals : List Signal) :
    scorer.verdicts s signals = (energy : Scorer μ).verdicts s signals := by
  induction signals with
  | nil => rfl
  | cons signal rest ih =>
    cases signal with
    | frame bytes => rw [verdicts, verdicts, judge_unused unused, judge_unused rfl, ih]
    | reset =>
      rw [verdicts, reset_unused unused, ih]
      rfl

end

end Scorer

namespace Segmenter

def orders (seg : Segmenter μ η) : List Signal → List Signal
  | [] => []
  | .frame bytes :: rest =>
    let fresh := if (seg.process bytes).1.phase = .complete then [.reset] else []
    .frame bytes :: (fresh ++ orders (seg.process bytes).2 rest)
  | .reset :: rest => .reset :: orders seg.reset rest

def rescore (seg : Segmenter μ η) (scorer : Scorer μ) : Segmenter μ η := { seg with scorer }

/-- Of its scorer, a segmenter knows no more than the verdict. It starts afresh behind a frame that
closes an utterance. -/
theorem advance_rescore (seg : Segmenter μ η) (scorer : Scorer μ) (isSpeech : Bool)
    (samples : List Int16) :
    let advanced := seg.advance isSpeech samples
    advanced.1.isSpeech = isSpeech ∧ advanced.2.settings = seg.settings ∧
    (seg.rescore scorer).advance isSpeech samples = (advanced.1,
      advanced.2.rescore (if advanced.1.phase = .complete then scorer.reset else scorer)) := by
  let other := seg.rescore scorer
  rcases seg.activity.silent_or_opens with silent | ⟨first, frames, quiet, opens⟩
  · have silent' : other.activity = .silent := silent
    cases isSpeech with
    | true =>
      rw [advance_onset rfl silent', advance_onset rfl silent]
      exact ⟨rfl, rfl, rfl⟩
    | false =>
      rw [advance_silence rfl silent', advance_silence rfl silent]
      exact ⟨rfl, rfl, rfl⟩
  · have opens' : other.activity.Opens first frames quiet := opens
    cases isSpeech with
    | true =>
      rw [advance_speech rfl opens', advance_speech rfl opens]
      exact ⟨rfl, rfl, rfl⟩
    | false =>
      by_cases short : quiet + samples.length <
          Audio.samplesOf seg.settings.endSilence seg.settings.sampleRate
      · rw [advance_pause rfl opens' samples short, advance_pause rfl opens samples short]
        exact ⟨rfl, rfl, rfl⟩
      · have long := Nat.not_lt.mp short
        rw [advance_complete rfl opens' samples long, advance_complete rfl opens samples long]
        exact ⟨rfl, rfl, rfl⟩

theorem process_scorer (seg : Segmenter μ η) (bytes : List UInt8) :
    let judged := seg.scorer.judge seg.settings (Audio.decode bytes)
    (seg.process bytes).1.isSpeech = judged.1 ∧
    (seg.process bytes).2.settings = seg.settings ∧
    (seg.process bytes).2.scorer =
      if (seg.process bytes).1.phase = .complete then judged.2.reset else judged.2 := by
  intro judged
  obtain ⟨verdict, settings, advanced⟩ :=
    (seg.rescore judged.2).advance_rescore judged.2 judged.1 (Audio.decode bytes)
  exact ⟨verdict, settings, congrArg (fun x => x.2.scorer) advanced⟩

theorem after_settings (seg : Segmenter μ η) (signals : List Signal) :
    (seg.after signals).settings = seg.settings := by
  induction signals generalizing seg with
  | nil => rfl
  | cons signal rest ih =>
    cases signal with
    | frame bytes => exact (ih _).trans (seg.process_scorer bytes).2.1
    | reset => exact ih seg.reset

theorem orders_frames (seg : Segmenter μ η) (signals : List Signal) :
    (seg.orders signals).filter Signal.isFrame = signals.filter Signal.isFrame := by
  induction signals generalizing seg with
  | nil => rfl
  | cons signal rest ih =>
    cases signal with
    | frame bytes =>
      have fresh : (if (seg.process bytes).1.phase = .complete then [Signal.reset] else []).filter
          Signal.isFrame = [] := by
        split <;> rfl
      rw [orders, List.filter_cons_of_pos rfl, List.filter_append, fresh, List.nil_append, ih,
        List.filter_cons_of_pos rfl]
    | reset => exact ih seg.reset

theorem run_append (seg : Segmenter μ η) (before later : List Signal) :
    seg.outcomes (before ++ later) = seg.outcomes before ++ (seg.after before).outcomes later ∧
      seg.after (before ++ later) = (seg.after before).after later := by
  induction before generalizing seg with
  | nil => exact ⟨rfl, rfl⟩
  | cons signal rest ih =>
    obtain ⟨outcomes, after⟩ := ih (seg.take signal).2
    exact ⟨congrArg (List.cons _) outcomes, after⟩

/-- In a run, the scorer does what it does alone with what it is given. -/
theorem run_scorer (seg : Segmenter μ η) (signals : List Signal) :
    (seg.after signals).scorer = seg.scorer.after seg.settings (seg.orders signals) ∧
    (seg.outcomes signals).filterMap (Option.map Outcome.isSpeech) =
      seg.scorer.verdicts seg.settings (seg.orders signals) := by
  induction signals generalizing seg with
  | nil => exact ⟨rfl, rfl⟩
  | cons signal rest ih =>
    cases signal with
    | frame bytes =>
      obtain ⟨verdict, settings, scorer⟩ := seg.process_scorer bytes
      obtain ⟨after, outcomes⟩ := ih (seg.process bytes).2
      rw [settings, scorer] at after outcomes
      rw [orders]
      refine ⟨after.trans ?_, ?_⟩
      · split <;> rfl
      · have first : (seg.outcomes (.frame bytes :: rest)).filterMap (Option.map Outcome.isSpeech) =
            (seg.process bytes).1.isSpeech ::
              ((seg.process bytes).2.outcomes rest).filterMap (Option.map Outcome.isSpeech) := rfl
        rw [first, verdict, outcomes]
        split <;> rfl
    | reset => exact ih seg.reset

end Segmenter
end Dialogue.Speech
