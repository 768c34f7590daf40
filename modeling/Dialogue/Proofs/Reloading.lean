import Dialogue.Proofs.Omission
import Dialogue.Proofs.Validation
import Dialogue.Proofs.Widening
/-!
Documents that are written and read again. Main statement: a flow that is saved and loaded again
is the same, unless a threshold of its speech settings is beyond all numbers of single precision:
such a one is written as null, and null is not read as a threshold.
-/
namespace Dialogue

open Json (Value Written Decode member optionalMember bind_reads forall_bind)

namespace Json

theorem nat_reads {bits n : Nat} {v : Value} (h : Decode.nat bits v = some n) :
    n ≤ twoTo bits - 1 := by
  simp only [Decode.nat, Option.map_eq_some_iff] at h
  obtain ⟨i, read, rfl⟩ := h
  have range := int_reads read
  omega

theorem member_nat_reads {bits : Nat} {ms : Table Value} {name : String} {default n : Nat}
    (standard : default ≤ twoTo bits - 1)
    (read : member ms name default (Decode.nat bits) = some n) : n ≤ twoTo bits - 1 := by
  cases member_reads read with
  | inl same =>
    rw [← same]
    exact standard
  | inr read =>
    obtain ⟨v, hv⟩ := read
    exact nat_reads hv

theorem nat_reads_as {bits n : Nat} (h : n ≤ twoTo bits - 1) :
    Decode.nat bits (.int n) = some n := by
  have range : (0 : Int) ≤ n ∧ (n : Int) ≤ twoTo bits - 1 := by
    have positive := twoTo_pos bits
    omega
  have read : Decode.int 0 (twoTo bits - 1) (.int n) = some (n : Int) := if_pos range
  simp [Decode.nat, read]

/-- A number of single precision is read as it was written, one beyond all of them not at all. -/
theorem single_reads (x : Single) :
    Decode.binary .single (Written.single x).toValue = if x.isFinite then some x else none := by
  by_cases finite : x.isFinite = true
  · rw [Written.toValue, if_pos finite, if_pos finite, Decode.binary,
      Binary.convert_convert finite]
  · rw [Written.toValue, if_neg finite, if_neg finite, Decode.binary]
    all_goals simp

end Json

namespace Speech.Settings

structure Fits (s : Settings) : Prop where
  minSpeech : s.minSpeech ≤ twoTo 32 - 1
  endSilence : s.endSilence ≤ twoTo 32 - 1
  maxPause : s.maxPause ≤ twoTo 32 - 1
  padding : s.padding ≤ twoTo 32 - 1
  sampleRate : s.sampleRate ≤ twoTo 32 - 1
  frameDuration : s.frameDuration ≤ twoTo 32 - 1

theorem fits_of_reads {ms : Table Value} : ∀ s, ofMembers ms = some s → s.Fits := by
  unfold ofMembers
  refine forall_bind fun threshold _ => forall_bind fun minSpeech h₁ =>
    forall_bind fun endSilence h₂ => forall_bind fun maxPause h₃ => forall_bind fun padding h₄ =>
    forall_bind fun sampleRate h₅ => forall_bind fun frameDuration h₆ =>
    forall_bind fun energyFilter _ => forall_bind fun energyThreshold _ s whole => ?_
  cases whole
  exact ⟨Json.member_nat_reads (by decide) h₁, Json.member_nat_reads (by decide) h₂,
    Json.member_nat_reads (by decide) h₃, Json.member_nat_reads (by decide) h₄,
    Json.member_nat_reads (by decide) h₅, Json.member_nat_reads (by decide) h₆⟩

theorem standard_fits : standard.Fits :=
  ⟨by decide, by decide, by decide, by decide, by decide, by decide⟩

def Finite (s : Settings) : Prop :=
  s.threshold.isFinite = true ∧ s.energyThreshold.isFinite = true

instance (s : Settings) : Decidable s.Finite := inferInstanceAs (Decidable (_ ∧ _))

/-- The settings come back from their members if their thresholds are finite. -/
theorem ofMembers_written {s : Settings} (fits : s.Fits) {ms : Table Value}
    (has : ∀ name ∈ names, ms.get? name = Written.find? s.toMembers name) :
    ofMembers ms = if s.Finite then some s else none := by
  have single (name : String) (default x : Single) (listed : name ∈ names)
      (found : Written.find? s.toMembers name = some (Written.single x).toValue) :
      member ms name default (Decode.binary .single) = if x.isFinite then some x else none := by
    rw [Json.member_some ((has name listed).trans found), Json.single_reads]
  have threshold := single "vad_threshold" standard.threshold s.threshold (by decide)
    (by simp [toMembers])
  have energyThreshold := single "energy_threshold" standard.energyThreshold s.energyThreshold
    (by decide) (by simp [toMembers])
  have energyFilter : member ms "energy_filter_enabled" standard.energyFilter Decode.bool =
      some s.energyFilter := by
    have found : ms.get? "energy_filter_enabled" = some (.bool s.energyFilter) := by
      rw [has _ (by decide)]
      simp [toMembers]
    rw [Json.member_some found, Decode.bool]
  have number (name : String) (default n : Nat) (listed : name ∈ names)
      (found : Written.find? s.toMembers name = some (.int n)) (low : n ≤ twoTo 32 - 1) :
      member ms name default (Decode.nat 32) = some n :=
    Json.member_reads_as ((has name listed).trans found) (Json.nat_reads_as low) default
  have minSpeech := number "min_speech_duration_ms" standard.minSpeech s.minSpeech (by decide)
    (by simp [toMembers]) fits.minSpeech
  have endSilence := number "silence_threshold_ms" standard.endSilence s.endSilence (by decide)
    (by simp [toMembers]) fits.endSilence
  have maxPause := number "max_pause_duration_ms" standard.maxPause s.maxPause (by decide)
    (by simp [toMembers]) fits.maxPause
  have padding := number "speech_pad_ms" standard.padding s.padding (by decide)
    (by simp [toMembers]) fits.padding
  have sampleRate := number "sample_rate" standard.sampleRate s.sampleRate (by decide)
    (by simp [toMembers]) fits.sampleRate
  have frameDuration := number "frame_duration_ms" standard.frameDuration s.frameDuration
    (by decide) (by simp [toMembers]) fits.frameDuration
  simp only [ofMembers, threshold, minSpeech, endSilence, maxPause, padding, sampleRate,
    frameDuration, energyFilter, energyThreshold, Finite]
  by_cases first : s.threshold.isFinite = true <;>
    by_cases second : s.energyThreshold.isFinite = true <;> simp [first, second]

end Speech.Settings

namespace Flow

namespace Settings

structure Fits (s : Settings) : Prop where
  maxTokens : s.maxTokens ≤ twoTo 32 - 1
  maxRetries : s.maxRetries ≤ twoTo 32 - 1
  speech : s.speech.Fits

theorem fits_of_reads {v : Value} : ∀ s, ofValue v = some s → s.Fits := by
  unfold ofValue
  refine forall_bind fun ms _ => forall_bind fun systemPrompt _ => forall_bind fun model _ =>
    forall_bind fun temperature _ => forall_bind fun maxTokens hmaxTokens =>
    forall_bind fun voice _ => forall_bind fun language _ =>
    forall_bind fun maxRetries hmaxRetries => forall_bind fun fallback _ =>
    forall_bind fun listens _ => forall_bind fun interruptible _ =>
    forall_bind fun speech hspeech => forall_bind fun initial _ =>
    forall_bind fun errorMessage _ => forall_bind fun handoffMessage _ s whole => ?_
  cases whole
  exact ⟨Json.member_nat_reads (by decide) hmaxTokens,
    Json.member_nat_reads (by decide) hmaxRetries, Speech.Settings.fits_of_reads speech hspeech⟩

theorem standard_fits : standard.Fits := ⟨by decide, by decide, Speech.Settings.standard_fits⟩

/-- Settings come back if the thresholds of their speech settings are finite. -/
theorem ofValue_written {s : Settings} (fits : s.Fits) :
    ofValue s.toWritten.toValue = if s.speech.Finite then some s else none := by
  let ms : Table Value := Table.ofPairs (Written.toMembers s.toMembers)
  have written : s.toWritten.toValue = .object ms := Written.toValue_record s.toMembers
  have has (name : String) (h : name ∈ Speech.Settings.names) :
      ms.get? name = Written.find? s.speech.toMembers name := by
    simp only [Speech.Settings.names, List.mem_cons, List.not_mem_nil, or_false] at h
    obtain rfl | rfl | rfl | rfl | rfl | rfl | rfl | rfl | rfl := h <;>
      simp [ms, toMembers, Speech.Settings.toMembers]
  have found (name : String) : ms.get? name = Written.find? s.toMembers name := rfl
  have systemPrompt : member ms "system_prompt" standard.systemPrompt Decode.string =
      some s.systemPrompt :=
    Json.member_string (by simp [found, toMembers, Speech.Settings.toMembers]) _
  have model : member ms "llm_model" standard.model Decode.string = some s.model :=
    Json.member_string (by simp [found, toMembers, Speech.Settings.toMembers]) _
  have temperature : member ms "temperature" standard.temperature Decode.double =
      some s.temperature :=
    Json.member_reads_as (v := .number (.double s.temperature))
      (by simp [found, toMembers, Speech.Settings.toMembers]) (by rfl) _
  have maxTokens : member ms "max_tokens" standard.maxTokens (Decode.nat 32) = some s.maxTokens :=
    Json.member_reads_as (v := .int s.maxTokens)
      (by simp [found, toMembers, Speech.Settings.toMembers]) (Json.nat_reads_as fits.maxTokens) _
  have voice : member ms "voice" standard.voice Decode.string = some s.voice :=
    Json.member_string (by simp [found, toMembers, Speech.Settings.toMembers]) _
  have language : member ms "language" standard.language Decode.string = some s.language :=
    Json.member_string (by simp [found, toMembers, Speech.Settings.toMembers]) _
  have maxRetries : member ms "max_retries" standard.maxRetries (Decode.nat 32) =
      some s.maxRetries :=
    Json.member_reads_as (v := .int s.maxRetries)
      (by simp [found, toMembers, Speech.Settings.toMembers]) (Json.nat_reads_as fits.maxRetries) _
  have fallback : optionalMember ms "fallback_node_id" Decode.string = some s.fallback :=
    Json.optionalMember_string (by simp [found, toMembers, Speech.Settings.toMembers])
  have listens : member ms "vad_enabled" standard.listens Decode.bool = some s.listens :=
    Json.member_reads_as (v := .bool s.listens)
      (by simp [found, toMembers, Speech.Settings.toMembers]) (by rfl) _
  have interruptible : member ms "allow_interruptions" standard.interruptible Decode.bool =
      some s.interruptible :=
    Json.member_reads_as (v := .bool s.interruptible)
      (by simp [found, toMembers, Speech.Settings.toMembers]) (by rfl) _
  have speech := Speech.Settings.ofMembers_written fits.speech has
  have initial : member ms "initial_variables" standard.initial Decode.object = some s.initial :=
    Json.member_reads_as (v := .object s.initial)
      (by simp [found, toMembers, Speech.Settings.toMembers]) (by rfl) _
  have errorMessage : member ms "error_message" standard.errorMessage Decode.string =
      some s.errorMessage :=
    Json.member_string (by simp [found, toMembers, Speech.Settings.toMembers]) _
  have handoffMessage : member ms "handoff_message" standard.handoffMessage Decode.string =
      some s.handoffMessage :=
    Json.member_string (by simp [found, toMembers, Speech.Settings.toMembers]) _
  rw [written, ofValue, Decode.object, bind_reads rfl, bind_reads systemPrompt, bind_reads model,
    bind_reads temperature, bind_reads maxTokens, bind_reads voice, bind_reads language,
    bind_reads maxRetries, bind_reads fallback, bind_reads listens, bind_reads interruptible]
  by_cases finite : s.speech.Finite
  · rw [if_pos finite] at speech ⊢
    rw [bind_reads speech, bind_reads initial, bind_reads errorMessage, bind_reads handoffMessage]
  · rw [if_neg finite] at speech ⊢
    rw [speech]
    rfl

end Settings

namespace Document

structure Fits (d : Document) : Prop where
  settings : d.settings.Fits
  nodes : ∀ n ∈ d.nodes, n.Fits

theorem fits_of_reads {v : Value} : ∀ d, ofValue v = some d → d.Fits := by
  unfold ofValue
  refine forall_bind fun ms _ => forall_bind fun id _ => forall_bind fun name _ =>
    forall_bind fun version _ => forall_bind fun description _ =>
    forall_bind fun settings hsettings => forall_bind fun start _ =>
    forall_bind fun nodes hnodes => forall_bind fun createdAt _ =>
    forall_bind fun updatedAt _ d whole => ?_
  cases whole
  constructor
  · cases Json.member_reads hsettings with
    | inl same =>
      rw [← same]
      exact Settings.standard_fits
    | inr read =>
      obtain ⟨w, hw⟩ := read
      exact Settings.fits_of_reads settings hw
  · intro n listed
    cases Json.member_reads hnodes with
    | inl none =>
      simp only [← none] at listed
      cases listed
    | inr read =>
      obtain ⟨w, hw⟩ := read
      obtain ⟨u, hu⟩ := Json.list_reads hw listed
      exact Node.fits_of_reads n hu

/-- A document comes back if the thresholds of its speech settings are finite. -/
theorem ofValue_written {d : Document} (fits : d.Fits) :
    ofValue d.toValue = if d.settings.speech.Finite then some d else none := by
  let ms : Table Value := Table.ofPairs (Written.toMembers d.toMembers)
  have written : d.toValue = .object ms := Written.toValue_record d.toMembers
  have found (name : String) : ms.get? name = Written.find? d.toMembers name := rfl
  have listed : ms.get? "nodes" = some (.array (d.nodes.map fun n => n.toWritten.toValue)) := by
    simp [found, toMembers, Written.toValue_list]
  have nodes : ((d.nodes.map fun n => n.toWritten.toValue).map withType).mapM Node.ofValue =
      some d.nodes := by
    rw [List.map_map]
    exact Json.list_map fun n h => Node.ofValue_omitted (fits.nodes n h) n.omitted_refl
  have id : member ms "id" "" Decode.string = some d.id :=
    Json.member_string (by simp [found, toMembers]) _
  have name : member ms "name" "" Decode.string = some d.name :=
    Json.member_string (by simp [found, toMembers]) _
  have version : member ms "version" "1.0.0" Decode.string = some d.version :=
    Json.member_string (by simp [found, toMembers]) _
  have description : optionalMember ms "description" Decode.string = some d.description :=
    Json.optionalMember_string (by simp [found, toMembers])
  have settings : member ms "global_settings" .standard Settings.ofValue =
      if d.settings.speech.Finite then some d.settings else none := by
    have found : ms.get? "global_settings" = some d.settings.toWritten.toValue := by
      simp [found, toMembers]
    rw [Json.member_some found, Settings.ofValue_written fits.settings]
  have start : member ms "start_node_id" "" Decode.string = some d.start :=
    Json.member_string (by simp [found, toMembers]) _
  have createdAt : optionalMember ms "created_at" Decode.string = some d.createdAt :=
    Json.optionalMember_string (by simp [found, toMembers])
  have updatedAt : optionalMember ms "updated_at" Decode.string = some d.updatedAt :=
    Json.optionalMember_string (by simp [found, toMembers])
  rw [written, ofValue_byName listed, nodes, outline, bind_reads id, bind_reads name,
    bind_reads version, bind_reads description]
  by_cases finite : d.settings.speech.Finite
  · rw [if_pos finite] at settings ⊢
    rw [bind_reads settings, bind_reads start, bind_reads createdAt, bind_reads updatedAt]
    rfl
  · rw [if_neg finite] at settings ⊢
    rw [settings]
    rfl

end Document

theorem fits_of_loads {v : Value} {f : Flow} (loads : ofValue v = .ok f) : f.document.Fits := by
  rw [ofValue] at loads
  cases read : Document.ofValue v with
  | none =>
    rw [read] at loads
    cases loads
  | some d =>
    rw [read, load, ofDocument] at loads
    split at loads
    · cases loads
      exact Document.fits_of_reads d read
    · cases loads

/-- A saved flow is loaded again if the thresholds of its speech settings are finite. -/
theorem ofValue_saved {f : Flow} (fits : f.document.Fits) :
    ofValue f.graph.toDocument.toValue =
      if f.settings.speech.Finite then .ok f else .error .malformed := by
  have saved : f.graph.toDocument = f.document := Graph.toDocument_ofDocument f.ids_nodup
  have reads : Document.ofValue f.document.toValue =
      if f.settings.speech.Finite then some f.document else none :=
    Document.ofValue_written fits
  rw [saved, ofValue, reads]
  by_cases finite : f.settings.speech.Finite
  · rw [if_pos finite, if_pos finite, load, ofDocument, dif_pos f.sound]
    rfl
  · rw [if_neg finite, if_neg finite, load]

/-- A flow that is saved and loaded again is the same flow, with the same settings, unless a
threshold of its speech settings is infinite: then it cannot be loaded again. -/
theorem reloads {v : Value} {f : Flow} (loads : ofValue v = .ok f) :
    (f.settings.speech.Finite → ofValue f.graph.toDocument.toValue = .ok f) ∧
      (¬ f.settings.speech.Finite → ofValue f.graph.toDocument.toValue = .error .malformed) := by
  have saved := ofValue_saved (fits_of_loads loads)
  constructor
  · intro finite
    rw [saved, if_pos finite]
  · intro infinite
    rw [saved, if_neg infinite]

def counter (threshold : Double) : Value :=
  .object [("global_settings", .object [("vad_threshold", .number (.double threshold))]),
    ("nodes", .array [.object [("id", .string "counter")]]),
    ("start_node_id", .string "counter")]

def counterFlow (threshold : Single) : Flow where
  document :=
    { id := "", name := "", version := "1.0.0", description := none,
      settings := { Settings.standard with
        speech := { Speech.Settings.standard with threshold := threshold } },
      start := "counter", nodes := [.ofKind "counter" (.conversation .standard)],
      createdAt := none, updatedAt := none }
  sound := rfl

theorem counter_loads (threshold : Double) :
    ofValue (counter threshold) = .ok (counterFlow (threshold.convert .single)) := rfl

/-- With half for the threshold, the flow is loaded again. -/
theorem counter_reloads :
    let half : Double := .ofDecimal .double false 5 (-1)
    ∃ f, ofValue (counter half) = .ok f ∧ f.settings.speech.Finite ∧
      ofValue f.graph.toDocument.toValue = .ok f := by
  intro half
  have loads := counter_loads half
  have finite : (counterFlow (half.convert .single)).settings.speech.Finite := by decide +kernel
  exact ⟨_, loads, finite, (reloads loads).1 finite⟩

/-- With ten to the thirty-ninth for the threshold, more than any number of single precision, the
flow is loaded, but not loaded again. -/
theorem counter_lost :
    let huge : Double := .ofDecimal .double false 1 39
    huge.isFinite = true ∧ ∃ f, ofValue (counter huge) = .ok f ∧
      ofValue f.graph.toDocument.toValue = .error .malformed := by
  intro huge
  have loads := counter_loads huge
  have infinite : ¬ (counterFlow (huge.convert .single)).settings.speech.Finite := by
    decide +kernel
  have saved := ofValue_saved (fits_of_loads loads)
  rw [if_neg infinite] at saved
  exact ⟨by decide +kernel, _, loads, saved⟩

end Flow

end Dialogue
