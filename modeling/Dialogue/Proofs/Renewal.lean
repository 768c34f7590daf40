import Dialogue.Proofs.Balance
import Dialogue.Proofs.Scoring
/-!
Nothing of one utterance reaches the next. Main statement: behind a reset, and behind a frame that
closes an utterance, a stream goes on as one that has just begun, unless its model remembers.
-/
namespace Dialogue.Speech

variable {μ η ν : Type}

inductive Model.Comes (m : Model μ) (rate : Nat) (init : μ) : μ → Prop where
  | init : Comes m rate init init
  | score {state : μ} (before : Comes m rate init state) (samples : List Int16) {p : Single}
      (answer : (m.score samples rate state).1 = .ok p) :
      Comes m rate init (m.score samples rate state).2
  | reset {state : μ} (before : Comes m rate init state) : Comes m rate init (m.reset state)

def Model.Restores (m : Model μ) (rate : Nat) (init : μ) : Prop :=
  ∀ state, m.Comes rate init state → m.reset state = init

/-- The scorer of a fresh stream, in place of one that was installed in another and stands there
now: energy alone where there is no model or none any more, else the one that was installed. -/
inductive Afresh (s : Settings) (installed now : Scorer μ) : Scorer μ → Prop where
  | energy (never : installed = .energy) : Afresh s installed now .energy
  | failed (unused : now.usesModel = false) : Afresh s installed now .energy
  | restored (m : Model μ) (init : μ) (first : installed = .model m init)
      (restores : m.Restores s.sampleRate init) (uses : now.usesModel = true) :
      Afresh s installed now installed

def History.rests (h : History) : Bool :=
  h.getLast?.any fun last => last.all fun o => o.phase = .complete

/-- Two scorers that cannot be told apart: the same, or both without a model in use. -/
def Scorer.Alike (a b : Scorer μ) : Prop := a = b ∨ a.usesModel = false ∧ b.usesModel = false

def Scorer.Comes (s : Settings) (m : Model μ) (init : μ) (scorer : Scorer μ) : Prop :=
  scorer.usesModel = false ∨ ∃ state, scorer = .model m state ∧ m.Comes s.sampleRate init state

namespace Scorer
variable {s : Settings} {m : Model μ} {init : μ} {scorer : Scorer μ}

theorem Comes.judge (h : scorer.Comes s m init) (samples : List Int16) :
    (scorer.judge s samples).2.Comes s m init := by
  rcases h with unused | ⟨state, rfl, comes⟩
  · rw [judge_unused unused]
    exact .inl unused
  · cases quiet : s.isQuiet (Audio.energy samples) with
    | true =>
      rw [judge_rejected quiet]
      exact .inr ⟨state, rfl, comes⟩
    | false =>
      cases answer : (m.score samples s.sampleRate state).1 with
      | ok p =>
        rw [judge_answered quiet answer]
        exact .inr ⟨_, rfl, comes.score samples answer⟩
      | error message =>
        rw [judge_fails quiet answer]
        exact .inl rfl

theorem Comes.reset (h : scorer.Comes s m init) : scorer.reset.Comes s m init := by
  rcases h with unused | ⟨state, rfl, comes⟩
  · rw [reset_unused unused]
    exact .inl unused
  · exact .inr ⟨_, rfl, comes.reset⟩

theorem Comes.reset_eq (h : scorer.Comes s m init) (restores : m.Restores s.sampleRate init) :
    scorer.usesModel = false ∨ scorer.reset = .model m init := by
  rcases h with unused | ⟨state, rfl, comes⟩
  · exact .inl unused
  · exact .inr (congrArg (model m) (restores state comes))

end Scorer

namespace Segmenter

section
variable {seg : Segmenter μ η} {scorer : Scorer μ} (unused : seg.scorer.usesModel = false)
  (unused' : scorer.usesModel = false)
include unused unused'

theorem take_rescore (signal : Signal) :
    (seg.rescore scorer).take signal =
      ((seg.take signal).1, (seg.take signal).2.rescore scorer) := by
  have fresh : scorer.reset = scorer := Scorer.reset_unused unused'
  cases signal with
  | frame bytes =>
    have judged := Scorer.judge_unused unused seg.settings (Audio.decode bytes)
    have judged' := Scorer.judge_unused unused' seg.settings (Audio.decode bytes)
    have same : (seg.rescore scorer).process bytes =
        ((seg.process bytes).1, (seg.process bytes).2.rescore scorer) := by
      obtain ⟨-, -, advanced⟩ := seg.advance_rescore scorer
        ((Scorer.energy : Scorer μ).judge seg.settings (Audio.decode bytes)).1 (Audio.decode bytes)
      rw [fresh, ite_self] at advanced
      unfold process
      dsimp only [rescore] at advanced ⊢
      rw [judged, judged']
      exact advanced
    exact congrArg (fun x => (some x.1, x.2)) same
  | reset => exact congrArg (fun scorer => (none, seg.reset.rescore scorer)) fresh

omit unused' in
theorem take_unused (signal : Signal) : (seg.take signal).2.scorer = seg.scorer := by
  cases signal with
  | frame bytes =>
    obtain ⟨-, -, scorer⟩ := seg.process_scorer bytes
    rw [Scorer.judge_unused unused, Scorer.reset_unused unused, ite_self] at scorer
    exact scorer
  | reset => exact Scorer.reset_unused unused

/-- Without a model in use, one scorer does as well as the other. -/
theorem run_rescore (signals : List Signal) :
    (seg.rescore scorer).outcomes signals = seg.outcomes signals ∧
      (seg.rescore scorer).after signals = (seg.after signals).rescore scorer := by
  induction signals generalizing seg with
  | nil => exact ⟨rfl, rfl⟩
  | cons signal rest ih =>
    have later : (seg.take signal).2.scorer.usesModel = false := by rw [take_unused unused, unused]
    obtain ⟨outcomes, after⟩ := ih later
    rw [Segmenter.outcomes, Segmenter.after, take_rescore unused unused']
    exact ⟨congrArg _ outcomes, after⟩

end

/-- Neither the scorer nor the hooks tell two such streams apart. -/
theorem run_alike {scorer : Scorer μ} (seg : Segmenter μ η) (alike : seg.scorer.Alike scorer)
    (onStart onEnd : Option (Hook ν)) (hooked : ν) (signals : List Signal) :
    let other := (seg.rescore scorer).rehook onStart onEnd hooked
    seg.outcomes signals = other.outcomes signals ∧
      (seg.after signals).phase = (other.after signals).phase ∧
      (seg.after signals).buffered = (other.after signals).buffered := by
  intro other
  obtain ⟨outcomes, hooked', after⟩ := (seg.rescore scorer).run_rehook onStart onEnd hooked signals
  rw [outcomes, after]
  rcases alike with same | ⟨unused, unused'⟩
  · rw [rescore, ← same]
    exact ⟨rfl, rfl, rfl⟩
  · obtain ⟨outcomes', after'⟩ := seg.run_rescore unused unused' signals
    rw [outcomes', after']
    exact ⟨rfl, rfl, rfl⟩

/-- A frame that closes an utterance leaves what a reset leaves. -/
theorem advance_reset {seg : Segmenter μ η} {isSpeech : Bool} {samples : List Int16}
    (complete : (seg.advance isSpeech samples).1.phase = .complete) :
    ∃ hooked, (seg.advance isSpeech samples).2 = { seg.reset with hooked } := by
  rcases seg.activity.silent_or_opens with silent | ⟨first, frames, quiet, opens⟩
  · cases isSpeech with
    | true =>
      rw [advance_onset rfl silent] at complete
      cases complete
    | false =>
      rw [advance_silence rfl silent] at complete
      cases complete
  · cases isSpeech with
    | true =>
      rw [advance_speech rfl opens] at complete
      cases complete
    | false =>
      by_cases short : quiet + samples.length <
          Audio.samplesOf seg.settings.endSilence seg.settings.sampleRate
      · rw [advance_pause rfl opens samples short] at complete
        cases complete
      · rw [advance_complete rfl opens samples (Nat.not_lt.mp short)]
        exact ⟨_, rfl⟩

/-- Where a run rests, nothing of its sound is left, and the scorer has just begun afresh. -/
theorem after_rests {seg : Segmenter μ η} {past : List Signal}
    (rests : History.rests (seg.outcomes past) = true) :
    ∃ orders, (seg.after past).activity = .silent ∧ (seg.after past).buffer = #[] ∧
      (seg.after past).scorer = (seg.scorer.after seg.settings orders).reset := by
  obtain ⟨last, hlast, complete⟩ := (Option.any_eq_true _ _).mp rests
  rcases List.eq_nil_or_concat past with rfl | ⟨before, signal, rfl⟩
  · cases hlast
  · obtain ⟨outcomes, after⟩ := seg.run_append before [signal]
    obtain ⟨scorer, -⟩ := seg.run_scorer before
    have settings := seg.after_settings before
    rw [List.concat_eq_append] at hlast ⊢
    rw [after]
    cases signal with
    | frame bytes =>
      let heard := seg.after before
      let judged := heard.scorer.judge heard.settings (Audio.decode bytes)
      have closes : ((heard.rescore judged.2).advance judged.1 (Audio.decode bytes)).1.phase =
          .complete := by
        rw [outcomes, List.getLast?_append] at hlast
        rw [← Option.some.inj hlast] at complete
        exact of_decide_eq_true complete
      obtain ⟨hooked, next⟩ := advance_reset closes
      have stands :
          heard.after [.frame bytes] = { (heard.rescore judged.2).reset with hooked } := next
      rw [stands]
      refine ⟨seg.orders before ++ [.frame bytes], rfl, rfl, ?_⟩
      rw [Scorer.after_append, ← scorer, ← settings]
      rfl
    | reset => exact ⟨seg.orders before, rfl, rfl, congrArg Scorer.reset scorer⟩

end Segmenter

/-- What a fresh stream begins with, by what stands in the other one now. -/
theorem Afresh.cases {s : Settings} {installed fresh : Scorer μ} {orders : List Signal}
    (afresh : Afresh s installed (installed.after s orders) fresh) :
    ((installed.after s orders).usesModel = false ∧ fresh = .energy) ∨
      ∃ m init, fresh = .model m init ∧ m.Restores s.sampleRate init ∧
        (installed.after s orders).usesModel = true ∧
        ∀ orders, (installed.after s orders).Comes s m init := by
  cases afresh with
  | energy never =>
    rw [never, Scorer.after_unused rfl]
    exact .inl ⟨rfl, rfl⟩
  | failed unused => exact .inl ⟨unused, rfl⟩
  | restored m init first restores uses =>
    refine .inr ⟨m, init, first, restores, uses, fun orders => ?_⟩
    rw [first]
    exact Scorer.after_keeps (fun _ samples comes => comes.judge samples)
      (fun _ comes => comes.reset) (.inr ⟨init, rfl, .init⟩) orders

/-- Behind a reset or a closing frame, a stream goes on as a fresh one with the same settings does:
with energy alone, or with a model that a fresh start takes back to where it began. At any point,
one reset does as well as two. -/
theorem begins_afresh (s : Settings) (scorer : Scorer μ) (onStart onEnd : Option (Hook η))
    (hooked : η) (seg : Segmenter μ η) (past : List Signal) (fresh : Scorer μ)
    (created : Segmenter.create s scorer onStart onEnd hooked = .ok seg)
    (afresh : Afresh s scorer (seg.after past).scorer fresh) :
    let now := seg.after past
    now.reset.reset = now.reset ∧
    (History.rests (seg.outcomes past) = true →
      ∀ (ν : Type) (onStart' onEnd' : Option (Hook ν)) (hooked' : ν),
        ∃ seg', Segmenter.create s fresh onStart' onEnd' hooked' = .ok seg' ∧
          ∀ later, now.outcomes later = seg'.outcomes later ∧
            (now.after later).phase = (seg'.after later).phase ∧
            (now.after later).buffered = (seg'.after later).buffered) := by
  intro now
  obtain ⟨fine, begins⟩ := Segmenter.create_eq_ok.mp created
  have installed : seg.scorer = scorer := by rw [← begins]
  have kept : seg.settings = s := by rw [← begins]
  have settings : now.settings = s := (seg.after_settings past).trans kept
  obtain ⟨stands, -⟩ := seg.run_scorer past
  rw [installed, kept] at stands
  rw [stands] at afresh
  refine ⟨?_, fun rests ν onStart' onEnd' hooked' => ?_⟩
  · have twice : now.scorer.reset.reset = now.scorer.reset := by
      rw [stands]
      rcases afresh.cases with ⟨unused, -⟩ | ⟨m, init, -, restores, uses, comes⟩
      · rw [Scorer.reset_unused unused, Scorer.reset_unused unused]
      · rcases (comes _).reset_eq restores with unused | first
        · rw [unused] at uses
          cases uses
        · rw [first]
          exact congrArg (Scorer.model m) (restores init .init)
    exact congrArg (fun scorer => { now.reset with scorer }) twice
  · obtain ⟨orders, silent, nothing, renewed⟩ := Segmenter.after_rests rests
    rw [installed, kept] at renewed
    have alike : now.scorer.Alike fresh := by
      rcases afresh.cases with ⟨unused, rfl⟩ | ⟨m, init, rfl, restores, uses, comes⟩
      · rw [stands]
        exact .inr ⟨unused, rfl⟩
      · rcases (comes orders).reset_eq restores with unused | first
        · rw [← stands, renewed, Scorer.reset_unused unused, unused] at uses
          cases uses
        · exact .inl (renewed.trans first)
    have same : (⟨s, fresh, .silent, #[], onStart', onEnd', hooked'⟩ : Segmenter μ ν) =
        (now.rescore fresh).rehook onStart' onEnd' hooked' := by
      rw [Segmenter.rehook, Segmenter.rescore, settings, silent, nothing]
    refine ⟨_, Segmenter.create_eq_ok.mpr ⟨fine, same⟩, ?_⟩
    exact now.run_alike alike onStart' onEnd' hooked'

def wary : Model Nat where
  score samples _ passed :=
    (.ok (if samples = [0] ∨ passed = 0 then ⟨false, 0⟩ else .ofInt .single 1),
      if samples = [0] then passed else passed + 1)
  reset _ := 0

def shout : List Signal := [.frame [1, 0], .frame [2, 0], .frame [0, 0], .frame [0, 0]]

theorem wary_begins_afresh :
    ∃ seg, Segmenter.create brief (.model wary 0) none none () = .ok seg ∧
      History.rests (seg.outcomes shout) = true ∧
      (seg.after shout).reset.reset = (seg.after shout).reset ∧
      (seg.after shout).outcomes shout = seg.outcomes shout ∧
      ((seg.after shout).outcomes shout).map (Option.map Outcome.isSpeech) =
        [some false, some true, some false, some false] := by
  obtain ⟨twice, goesOn⟩ := begins_afresh brief (.model wary 0) none none () _ shout _ rfl
    (.restored wary 0 rfl (fun _ _ => rfl) (by decide +kernel))
  obtain ⟨seg', created, same⟩ := goesOn (by decide +kernel) Unit none none ()
  obtain ⟨-, rfl⟩ := Segmenter.create_eq_ok.mp created
  obtain ⟨outcomes, -⟩ := same shout
  exact ⟨_, rfl, by decide +kernel, twice, outcomes, by decide +kernel⟩

end Dialogue.Speech
