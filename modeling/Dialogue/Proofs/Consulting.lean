import Dialogue.Proofs.Scoring
/-!
When a model is asked. It is asked once about each frame that the filter lets through, until it
fails; its calls are noted beside its state. Main statement: the first failure is the last call, and
the verdicts from then on are those of energy alone.
-/
namespace Dialogue.Speech

variable {μ η : Type}

inductive Call where
  | score (samples : List Int16) (rate : Nat) (answer : Except String Single)
  | reset

def Call.failed : Call → Bool
  | score _ _ (.error _) => true
  | _ => false

def Model.noted (m : Model μ) : Model (μ × List Call) where
  score samples rate now :=
    let (answer, state) := m.score samples rate now.1
    (answer, state, now.2 ++ [.score samples rate answer])
  reset now := (m.reset now.1, now.2 ++ [.reset])

theorem Model.noted_score {m : Model μ} {samples : List Int16} {rate : Nat} {state : μ}
    {answer : Except String Single} (h : (m.score samples rate state).1 = answer)
    (calls : List Call) :
    m.noted.score samples rate (state, calls) =
      (answer, (m.score samples rate state).2, calls ++ [.score samples rate answer]) := by
  rw [← h]
  rfl

def Scorer.calls (scorer : Scorer (μ × List Call)) : List Call :=
  (scorer.state?.map Prod.snd).getD []

/-- All that can come of a frame: the calls made with it, the verdict, and whether a model is in use
before and after it. -/
inductive Consults (s : Settings) (samples : List Int16) :
    Bool → List Call → Bool → Bool → Prop where
  | rejected (quiet : s.isQuiet (Audio.energy samples) = true) (uses : Bool) :
    Consults s samples uses [] false uses
  | answered (passed : s.isQuiet (Audio.energy samples) = false) (probability : Single) :
    Consults s samples true [.score samples s.sampleRate (.ok probability)]
      (decide (s.threshold ≤ probability)) true
  | fails (passed : s.isQuiet (Audio.energy samples) = false) (message : String) :
    Consults s samples true [.score samples s.sampleRate (.error message)]
      (s.isLoud (Audio.energy samples)) false
  | alone (passed : s.isQuiet (Audio.energy samples) = false) :
    Consults s samples false [] (s.isLoud (Audio.energy samples)) false

/-- A scorer and the same one with notes. No call has failed while the model is in use, and of a
retired one only the last. -/
inductive Notes (m : Model μ) : Scorer μ → Scorer (μ × List Call) → Prop where
  | uses (state : μ) {calls : List Call} (sound : ∀ call ∈ calls, call.failed = false) :
    Notes m (.model m state) (.model m.noted (state, calls))
  | retired (state : μ) {calls : List Call} (sound : ∀ call ∈ calls, call.failed = false)
      {last : Call} (failed : last.failed = true) :
    Notes m (.retired state) (.retired (state, calls ++ [last]))

theorem forall_concat_sound {calls : List Call} (sound : ∀ call ∈ calls, call.failed = false)
    {last : Call} (fine : last.failed = false) : ∀ call ∈ calls ++ [last], call.failed = false :=
  List.forall_mem_append.mpr ⟨sound, List.forall_mem_singleton.mpr fine⟩

namespace Notes
variable {m : Model μ} {plain : Scorer μ} {noted : Scorer (μ × List Call)}

theorem usesModel_eq (h : Notes m plain noted) : plain.usesModel = noted.usesModel := by
  cases h <;> rfl

/-- The model is in use exactly as long as no call has failed. -/
theorem usesModel_iff (h : Notes m plain noted) :
    noted.usesModel = true ↔ ∀ call ∈ noted.calls, call.failed = false := by
  cases h with
  | uses state sound => exact ⟨fun _ => sound, fun _ => rfl⟩
  | retired state sound failed =>
    refine ⟨nofun, fun all => ?_⟩
    have last := all _ (List.mem_append_right _ List.mem_cons_self)
    rw [failed] at last
    cases last

theorem failed_last (h : Notes m plain noted) {earlier later : List Call} {call : Call}
    (split : noted.calls = earlier ++ call :: later) (failed : call.failed = true) :
    later = [] := by
  cases h with
  | uses state sound =>
    have within : call ∈ earlier ++ call :: later := by simp
    rw [← split] at within
    rw [sound call within] at failed
    cases failed
  | @retired state calls sound last =>
    -- all calls but the last are sound, and this one is not
    rcases List.eq_nil_or_concat later with none | ⟨rest, other, rfl⟩
    · exact none
    · have whole : calls ++ [last] = (earlier ++ call :: rest) ++ [other] :=
        split.trans (by simp)
      obtain ⟨same, -⟩ := List.append_inj' whole rfl
      have within : call ∈ calls := by simp [same]
      rw [sound call within] at failed
      cases failed

theorem reset (h : Notes m plain noted) : Notes m plain.reset noted.reset ∧
    noted.reset.calls = noted.calls ++ if noted.usesModel then [.reset] else [] := by
  cases h with
  | uses state sound => exact ⟨.uses _ (forall_concat_sound sound rfl), rfl⟩
  | retired state sound failed => exact ⟨.retired state sound failed, (List.append_nil _).symm⟩

theorem judge (h : Notes m plain noted) (s : Settings) (samples : List Int16) :
    (plain.judge s samples).1 = (noted.judge s samples).1 ∧
    Notes m (plain.judge s samples).2 (noted.judge s samples).2 ∧
    ∃ added, (noted.judge s samples).2.calls = noted.calls ++ added ∧
      Consults s samples noted.usesModel added (noted.judge s samples).1
        (noted.judge s samples).2.usesModel := by
  cases quiet : s.isQuiet (Audio.energy samples) with
  | true =>
    rw [Scorer.judge_rejected quiet, Scorer.judge_rejected quiet]
    exact ⟨rfl, h, [], (List.append_nil _).symm, .rejected quiet _⟩
  | false =>
    cases h with
    | @uses state calls sound =>
      cases answer : (m.score samples s.sampleRate state).1 with
      | ok p =>
        have noted := Model.noted_score answer calls
        rw [Scorer.judge_answered quiet answer,
          Scorer.judge_answered quiet (congrArg Prod.fst noted), noted]
        exact ⟨rfl, .uses _ (forall_concat_sound sound rfl), _, rfl, .answered quiet p⟩
      | error message =>
        have noted := Model.noted_score answer calls
        rw [Scorer.judge_fails quiet answer,
          Scorer.judge_fails quiet (congrArg Prod.fst noted), noted]
        exact ⟨rfl, .retired _ sound rfl, _, rfl, .fails quiet message⟩
    | retired state sound failed =>
      rw [Scorer.judge_alone rfl quiet, Scorer.judge_alone rfl quiet]
      exact ⟨rfl, .retired state sound failed, [], (List.append_nil _).symm, .alone quiet⟩

/-- The notes make no difference to a run. -/
theorem run (h : Notes m plain noted) (s : Settings) (signals : List Signal) :
    Notes m (plain.after s signals) (noted.after s signals) ∧
      plain.verdicts s signals = noted.verdicts s signals := by
  induction signals generalizing plain noted with
  | nil => exact ⟨h, rfl⟩
  | cons signal rest ih =>
    cases signal with
    | frame bytes =>
      obtain ⟨same, later, -⟩ := h.judge s (Audio.decode bytes)
      obtain ⟨after, verdicts⟩ := ih later
      refine ⟨after, ?_⟩
      rw [Scorer.verdicts, Scorer.verdicts, same, verdicts]
    | reset => exact ih h.reset.1

end Notes

/-- Where no model is in use after a frame, the verdict on it is that of energy. -/
theorem Consults.verdict_eq {s : Settings} {samples : List Int16} {uses verdict : Bool}
    {added : List Call} (h : Consults s samples uses added verdict false) :
    verdict = ((Scorer.energy : Scorer μ).judge s samples).1 := by
  cases h with
  | rejected quiet => rw [Scorer.judge_rejected quiet]
  | fails passed | alone passed => rw [Scorer.judge_alone rfl passed]

/-- Through frames and resets of any order, a model is asked about the frames that the filter lets
through, once about each, until a call fails; that call is the last. Up to it, its probabilities
make the verdicts; with it and from then on, energy alone does. A segmenter asks no more of its
scorer than a verdict on each frame and a fresh start at each reset and behind each closing frame. -/
theorem asked_until_failure (s : Settings) (m : Model μ) (init : μ) :
    let plain : Scorer μ := .model m init
    let noted : Scorer (μ × List Call) := .model m.noted (init, [])
    let alone : Scorer (μ × List Call) := .energy
    (∀ signals,
      let now := noted.after s signals
      plain.verdicts s signals = noted.verdicts s signals ∧
      (plain.after s signals).usesModel = now.usesModel ∧
      (now.usesModel = true ↔ ∀ call ∈ now.calls, call.failed = false) ∧
      (∀ earlier call later, now.calls = earlier ++ call :: later → call.failed = true →
        later = []) ∧
      now.reset.calls = now.calls ++ (if now.usesModel then [.reset] else []) ∧
      ∀ bytes,
        let judged := now.judge s (Audio.decode bytes)
        (∃ added, judged.2.calls = now.calls ++ added ∧
          Consults s (Audio.decode bytes) now.usesModel added judged.1 judged.2.usesModel) ∧
        (judged.2.usesModel = false → ∀ later,
          now.verdicts s (.frame bytes :: later) =
            (alone.after s signals).verdicts s (.frame bytes :: later))) ∧
    ∀ (η : Type) (seg : Segmenter μ η) (signals : List Signal),
      (seg.after signals).scorer = seg.scorer.after seg.settings (seg.orders signals) ∧
      (seg.outcomes signals).filterMap (Option.map Outcome.isSpeech) =
        seg.scorer.verdicts seg.settings (seg.orders signals) ∧
      (seg.orders signals).filter Signal.isFrame = signals.filter Signal.isFrame := by
  intro plain noted alone
  have begins : Notes m plain noted := .uses init nofun
  refine ⟨fun signals => ?_, fun η seg signals => ?_⟩
  · obtain ⟨notes, verdicts⟩ := begins.run s signals
    refine ⟨verdicts, notes.usesModel_eq, notes.usesModel_iff, fun earlier call later => ?_,
      notes.reset.2, fun bytes => ?_⟩
    · exact notes.failed_last
    · obtain ⟨-, -, added, calls, consults⟩ := notes.judge s (Audio.decode bytes)
      refine ⟨⟨added, calls, consults⟩, fun unused later => ?_⟩
      rw [unused] at consults
      have still : alone.after s signals = alone := Scorer.after_unused rfl s signals
      rw [still, Scorer.verdicts, Scorer.verdicts, consults.verdict_eq,
        Scorer.verdicts_unused unused, Scorer.judge_unused (rfl : alone.usesModel = false)]
  · obtain ⟨after, verdicts⟩ := seg.run_scorer signals
    exact ⟨after, verdicts, seg.orders_frames signals⟩

def tiring : Model Nat where
  score _ _ asked := (if asked = 2 then .error "tired" else .ok (.ofInt .single 1), asked + 1)
  reset asked := asked

def hollow : List Signal := [.frame [], .reset, .frame [], .frame [], .reset, .frame []]

theorem tiring_retires :
    let s : Settings := { Settings.standard with energyFilter := false }
    let now : Scorer (Nat × List Call) := (Scorer.model tiring.noted (0, [])).after s hollow
    now.calls.map Call.failed = [false, false, false, true] ∧ now.usesModel = false ∧
      (Scorer.model tiring 0).verdicts s hollow = [true, true, false, false] := by
  intro s now
  obtain ⟨runs, -⟩ := asked_until_failure s tiring 0
  obtain ⟨verdicts, -, uses, -⟩ := runs hollow
  have failed : now.calls.map Call.failed = [false, false, false, true] := by decide +kernel
  refine ⟨failed, ?_, verdicts.trans (by decide +kernel)⟩
  rw [← Bool.not_eq_true, uses]
  intro sound
  have none : true ∉ now.calls.map Call.failed := by simpa using sound
  exact none (by simp [failed])

end Dialogue.Speech
