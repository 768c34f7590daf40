import Dialogue.Proofs.Keeping
import Dialogue.Proofs.Scoring
import Mathlib.Data.List.Induction
/-!
How long speech is said to last. Silence is measured in samples, speech in frames that count for as
long as the settings have it. Main statement: what is reported along a stream is how long the speech
lasts exactly if every frame of speech is as long as that.
-/
namespace Dialogue.Speech

variable {μ η : Type}

def Outcome.voices (o : Outcome) (said : List (List UInt8)) (bytes : List UInt8) :
    List (List UInt8) :=
  if o.isSpeech then said ++ [bytes] else said

def voice (said : List (List UInt8)) : Signal × Option Outcome → List (List UInt8)
  | (.frame bytes, some o) => if o.phase = .complete then [] else o.voices said bytes
  | _ => []

/-- The frames of speech since an utterance last closed or was lost in a reset: an utterance opens
with the first of them. -/
def Segmenter.said (seg : Segmenter μ η) (signals : List Signal) : List (List UInt8) :=
  (signals.zip (seg.outcomes signals)).foldl voice []

def sampleCount (frames : List (List UInt8)) : Nat :=
  frames.foldl (fun count bytes => count + bytes.length / 2) 0

def Outcome.Timely (s : Settings) (said : List (List UInt8)) (o : Outcome) : Prop :=
  o.speech * s.sampleRate = sampleCount said * 1000 ∧
    ∀ u, o.utterance = some u → u.speech = sampleCount said * 1000 / s.sampleRate

def Activity.frames : Activity → Nat
  | silent => 0
  | speaking _ frames | pausing _ frames _ => frames

theorem Activity.Opens.frames_of {activity : Activity} {first frames quiet : Nat}
    (h : activity.Opens first frames quiet) : activity.frames = frames := by
  cases h <;> rfl

theorem sampleCount_concat (frames : List (List UInt8)) (bytes : List UInt8) :
    sampleCount (frames ++ [bytes]) = sampleCount frames + bytes.length / 2 :=
  List.foldl_append

/-- A frame is reported with all frames of speech of its utterance, which all count the same. -/
theorem Brings.counts {s : Settings} {onStart onEnd : Option (Hook η)} {activity next : Activity}
    {hooked hooked' : η} {o : Outcome} (h : Brings s onStart onEnd activity hooked o next hooked')
    {said : List (List UInt8)} (before : said.length = activity.frames) (bytes : List UInt8) :
    o.speech = (o.voices said bytes).length * s.frameDuration ∧
      (∀ u, o.utterance = some u → u.speech = o.speech) ∧
      (voice said (.frame bytes, some o)).length = next.frames := by
  cases h with
  | onset silent | silence silent =>
    rw [silent] at before
    simp [Outcome.voices, voice, before, Activity.frames]
  | speech opens | pause opens =>
    rw [opens.frames_of] at before
    simp [Outcome.voices, voice, before, Activity.frames]
  | discards opens =>
    rw [opens.frames_of] at before
    simp [Outcome.voices, voice, before, Activity.frames]
  | keeps opens enough u speech =>
    rw [opens.frames_of] at before
    simp [Outcome.voices, voice, before, Activity.frames, speech]

namespace Segmenter

theorem length_outcomes (seg : Segmenter μ η) (signals : List Signal) :
    (seg.outcomes signals).length = signals.length := by
  induction signals generalizing seg with
  | nil => rfl
  | cons signal rest ih => exact congrArg Nat.succ (ih _)

theorem said_concat (seg : Segmenter μ η) (before : List Signal) (signal : Signal) :
    seg.said (before ++ [signal]) =
      voice (seg.said before) (signal, ((seg.after before).take signal).1) := by
  obtain ⟨outcomes, -⟩ := seg.run_append before [signal]
  rw [said, outcomes, List.zip_append (seg.length_outcomes before).symm, List.foldl_append]
  rfl

/-- The frames of speech are counted. -/
theorem length_said {seg : Segmenter μ η} (silent : seg.activity = .silent)
    (signals : List Signal) : (seg.said signals).length = (seg.after signals).activity.frames := by
  induction signals using List.reverseRecOn with
  | nil => rw [Segmenter.after, silent]; rfl
  | append_singleton before signal ih =>
    obtain ⟨-, after⟩ := seg.run_append before [signal]
    rw [said_concat, after]
    cases signal with
    | frame bytes =>
      obtain ⟨brings, -⟩ := (seg.after before).process_brings bytes
      exact (brings.counts ih bytes).2.2
    | reset => rfl

end Segmenter

def KeepsTime (s : Settings) (said : List (List UInt8)) : Prop :=
  said.length * s.frameDuration * s.sampleRate = sampleCount said * 1000

theorem keepsTime_nil (s : Settings) : KeepsTime s [] := by simp [KeepsTime, sampleCount]

/-- One more frame is as long as the settings have it exactly if the frames with it are. -/
theorem keepsTime_concat {s : Settings} {said : List (List UInt8)} (inTime : KeepsTime s said)
    (bytes : List UInt8) :
    KeepsTime s (said ++ [bytes]) ↔ (Signal.frame bytes).Nominal s := by
  have more : (said.length + 1) * s.frameDuration * s.sampleRate =
      said.length * s.frameDuration * s.sampleRate + s.frameDuration * s.sampleRate := by
    rw [Nat.succ_mul, Nat.add_mul]
  have length : (Signal.frame bytes).samples.length = bytes.length / 2 := Audio.length_decode bytes
  rw [KeepsTime] at inTime
  rw [KeepsTime, sampleCount_concat, List.length_append, List.length_singleton, more, inTime,
    Signal.Nominal, length, Nat.add_mul]
  omega

theorem keepsTime_voices {s : Settings} {said : List (List UInt8)} (inTime : KeepsTime s said)
    (o : Outcome) (bytes : List UInt8) :
    KeepsTime s (o.voices said bytes) ↔ (o.isSpeech = true → (Signal.frame bytes).Nominal s) := by
  cases h : o.isSpeech with
  | true => simp [Outcome.voices, h, keepsTime_concat inTime]
  | false => simp [Outcome.voices, h, inTime]

/-- What is reported of a frame that follows a run, and the frames of speech it is reported on. -/
theorem Segmenter.process_counts {s : Settings} {seg : Segmenter μ η} (kept : seg.settings = s)
    (silent : seg.activity = .silent) (before : List Signal) (bytes : List UInt8) :
    let o := ((seg.after before).process bytes).1
    o.speech = (o.voices (seg.said before) bytes).length * s.frameDuration ∧
      ∀ u, o.utterance = some u → u.speech = o.speech := by
  obtain ⟨brings, -⟩ := (seg.after before).process_brings bytes
  rw [(seg.after_settings before).trans kept] at brings
  obtain ⟨speech, utterance, -⟩ := brings.counts (seg.length_said silent before) bytes
  exact ⟨speech, utterance⟩

theorem Settings.rated {s : Settings} (fine : s.problem? = none) : 0 < s.sampleRate := by
  refine Nat.pos_of_ne_zero fun unrated => ?_
  simp only [problem?, if_pos unrated] at fine
  cases fine

/-- A report is timely exactly if the frames that it is on keep time. -/
theorem timely_iff {s : Settings} {o : Outcome} {said : List (List UInt8)}
    (rated : 0 < s.sampleRate) (speech : o.speech = said.length * s.frameDuration)
    (utterance : ∀ u, o.utterance = some u → u.speech = o.speech) :
    o.Timely s said ↔ KeepsTime s said := by
  rw [KeepsTime, ← speech]
  refine ⟨fun timely => timely.1, fun inTime => ⟨inTime, fun u hu => ?_⟩⟩
  rw [utterance u hu, ← inTime, Nat.mul_div_cancel _ rated]

/-- Where no frame gets an utterance out of time, none that is open is out of time. -/
theorem Segmenter.said_keepsTime {s : Settings} {seg : Segmenter μ η} {signals : List Signal}
    (step : ∀ before bytes later, signals = before ++ .frame bytes :: later →
      KeepsTime s (seg.said before) →
      KeepsTime s (((seg.after before).process bytes).1.voices (seg.said before) bytes))
    (before later : List Signal) (split : signals = before ++ later) :
    KeepsTime s (seg.said before) := by
  induction before using List.reverseRecOn generalizing later with
  | nil => exact keepsTime_nil s
  | append_singleton before signal ih =>
    rw [List.append_assoc, List.singleton_append] at split
    have inTime := ih _ split
    rw [said_concat]
    cases signal with
    | frame bytes =>
      by_cases complete : ((seg.after before).process bytes).1.phase = .complete
      · simp [take, voice, complete, keepsTime_nil]
      · simpa [take, voice, complete] using step before bytes later split inTime
    | reset => exact keepsTime_nil s

/-- In any run, a frame is reported with the frames of speech of its utterance, each counted with
the length that the settings have. Along a stream, the reports are how long they really last exactly
if every frame that is judged speech lasts as long as that. -/
theorem speech_timely_iff (s : Settings) (scorer : Scorer μ) (onStart onEnd : Option (Hook η))
    (hooked : η) (seg : Segmenter μ η) (signals : List Signal)
    (created : Segmenter.create s scorer onStart onEnd hooked = .ok seg) :
    let outcome (before : List Signal) (bytes : List UInt8) := ((seg.after before).process bytes).1
    let said (before : List Signal) (bytes : List UInt8) :=
      (outcome before bytes).voices (seg.said before) bytes
    (∀ before bytes, (outcome before bytes).speech = (said before bytes).length * s.frameDuration ∧
      ∀ u, (outcome before bytes).utterance = some u → u.speech = (outcome before bytes).speech) ∧
    ((∀ before bytes later, signals = before ++ .frame bytes :: later →
        (outcome before bytes).Timely s (said before bytes)) ↔
      ∀ before bytes later, signals = before ++ .frame bytes :: later →
        (outcome before bytes).isSpeech = true → (Signal.frame bytes).Nominal s) := by
  intro outcome said
  obtain ⟨fine, begins⟩ := Segmenter.create_eq_ok.mp created
  have counts : ∀ before bytes, (outcome before bytes).speech =
      (said before bytes).length * s.frameDuration ∧
        ∀ u, (outcome before bytes).utterance = some u → u.speech = (outcome before bytes).speech :=
    Segmenter.process_counts (by rw [← begins]) (by rw [← begins])
  have timely (before : List Signal) (bytes : List UInt8) :
      (outcome before bytes).Timely s (said before bytes) ↔ KeepsTime s (said before bytes) :=
    timely_iff (Settings.rated fine) (counts before bytes).1 (counts before bytes).2
  refine ⟨counts, fun all before bytes later split => ?_, fun all before bytes later split => ?_⟩
  · have inTime := Segmenter.said_keepsTime
      (fun before bytes later split _ => (timely before bytes).mp (all before bytes later split))
      before _ split
    have reported := (timely before bytes).mp (all before bytes later split)
    exact (keepsTime_voices inTime _ bytes).mp reported
  · have inTime := Segmenter.said_keepsTime
      (fun before bytes later split inTime =>
        (keepsTime_voices inTime _ bytes).mpr (all before bytes later split))
      before _ split
    have spoken := (keepsTime_voices inTime _ bytes).mpr (all before bytes later split)
    exact (timely before bytes).mpr spoken

theorem tone_timely :
    ∃ seg, Segmenter.create (clipped 240) (.model sounding ()) none none () = .ok seg ∧
      ∀ before bytes later, tone ++ [.frame hush] = before ++ .frame bytes :: later →
        let o := ((seg.after before).process bytes).1
        o.Timely (clipped 240) (o.voices (seg.said before) bytes) := by
  obtain ⟨-, timely⟩ := speech_timely_iff (clipped 240) (.model sounding ()) none none () _
    (tone ++ [.frame hush]) rfl
  have nominal : ∀ signal ∈ tone ++ [.frame hush], signal.Nominal (clipped 240) := by decide
  refine ⟨_, rfl, timely.mpr fun before bytes later split _ => nominal _ ?_⟩
  rw [split]
  simp

def chirp : List UInt8 := List.replicate 20 1

theorem chirp_untimely :
    ∃ seg, Segmenter.create (clipped 0) (.model sounding ()) none none () = .ok seg ∧
      let o := ((seg.after [.frame chirp]).process hush).1
      let said := o.voices (seg.said [.frame chirp]) hush
      sampleCount said * 1000 = 10 * (clipped 0).sampleRate ∧ o.speech = 30 ∧
        o.utterance.map Utterance.speech = some 30 ∧ ¬ o.Timely (clipped 0) said := by
  refine ⟨_, rfl, ?_⟩
  intro o said
  have lasts : sampleCount said = 10 := by decide +kernel
  have speech : o.speech = 30 := by decide +kernel
  refine ⟨by rw [lasts]; rfl, speech, by decide +kernel, fun timely => ?_⟩
  have same := timely.1
  rw [lasts, speech] at same
  exact absurd same (by decide)

end Dialogue.Speech
