import Dialogue.Proofs.Samples
import Dialogue.Proofs.Segmentation
/-!
The segmenter in bytes and counters. A phase, offsets and counts take the place of an activity, and
a difference, a slice or a count may fail. Main statement: none of them does, and what comes of a
stream is what the segmenter makes of it.
-/
namespace Dialogue.Speech

open Segmenter (pad)

inductive Breach where
  | belowZero
  | beyondEnd
  | beyondWord

namespace Checked

def minus (n k : Nat) : Except Breach Nat :=
  if k ≤ n then .ok (n - k) else .error .belowZero

def succ (n : Nat) : Except Breach Nat :=
  if n + 1 < twoTo 32 then .ok (n + 1) else .error .beyondWord

def slice (bytes : List UInt8) (start stop : Nat) : Except Breach (List UInt8) :=
  if start ≤ stop ∧ stop ≤ bytes.length then .ok (bytes.extract start stop)
  else .error .beyondEnd

end Checked

inductive Closing where
  | kept (bytes : List UInt8) (rate start stop speech : Nat)
  | short
  | startless

structure Report where
  phase : Phase
  isSpeech : Bool
  started : Bool
  closing : Option Closing
  speech : Nat

/-- A stream being cut, in bytes and counters: the bytes kept and their samples, where the speech
begins and ends among these, the quiet frames and samples since the last speech, the speech
frames. -/
structure Recorder (μ : Type) where
  settings : Settings
  scorer : Scorer μ
  phase : Phase
  bytes : List UInt8
  samples : Nat
  start : Option Nat
  stop : Option Nat
  quietFrames : Nat
  quiet : Nat
  frames : Nat

namespace Recorder
variable {μ : Type}

def blank (s : Settings) (scorer : Scorer μ) : Recorder μ :=
  ⟨s, scorer, .silence, [], 0, none, none, 0, 0, 0⟩

def reset (r : Recorder μ) : Recorder μ := blank r.settings r.scorer.reset

def limit (s : Settings) : Nat :=
  max (5 * s.sampleRate) (Audio.samplesOf (max 500 s.padding) s.sampleRate)

def trim (r : Recorder μ) : Except Breach (Recorder μ) :=
  let s := r.settings
  if r.samples * 1000 ≤ 5000 * s.sampleRate then .ok r
  else do
    let keep := min (Audio.samplesOf (max 500 s.padding) s.sampleRate) r.samples
    let drop ← Checked.minus r.samples keep
    let bytes ← Checked.slice r.bytes (2 * drop) r.bytes.length
    .ok { r with bytes, samples := keep }

def count (r : Recorder μ) (isSpeech : Bool) (onset samples : Nat) : Except Breach (Recorder μ) :=
  let s := r.settings
  match r.phase, isSpeech with
  | .silence, true | .complete, true =>
    .ok { r with phase := .speaking, start := some onset, frames := 1, quietFrames := 0, quiet := 0 }
  | .silence, false | .complete, false => r.trim
  | .speaking, true | .pause, true => do
    let frames ← Checked.succ r.frames
    .ok { r with phase := .speaking, frames, quietFrames := 0, quiet := 0 }
  | .speaking, false | .pause, false => do
    let quietFrames ← Checked.succ r.quietFrames
    let quiet := r.quiet + samples
    if quiet < Audio.samplesOf s.endSilence s.sampleRate then
      .ok { r with phase := .pause, quietFrames, quiet }
    else do
      let last ← Checked.minus r.samples quiet
      .ok { r with phase := .complete, quietFrames, quiet, stop := some (last + pad s) }

def finish (r : Recorder μ) : Except Breach Closing :=
  if r.frames < r.settings.minFrames then .ok .short
  else
    match r.start with
    | none => .ok .startless
    | some start => do
      let stop := min (r.stop.getD r.samples) r.samples
      let first := min (2 * start) r.bytes.length
      let bytes ← Checked.slice r.bytes first (max (2 * stop) first)
      .ok (.kept bytes r.settings.sampleRate start stop (r.frames * r.settings.frameDuration))

def hear (r : Recorder μ) (frame : List UInt8) : Except Breach (Recorder μ) := do
  let samples := (Audio.decode frame).length
  let heard ← Checked.slice frame 0 (2 * samples)
  .ok { r with bytes := r.bytes ++ heard, samples := r.samples + samples }

def settle (r : Recorder μ) (isSpeech started : Bool) : Except Breach (Report × Recorder μ) :=
  let speech := r.frames * r.settings.frameDuration
  if r.phase = .complete then do
    let closing ← r.finish
    .ok (⟨.complete, isSpeech, started, some closing, speech⟩, r.reset)
  else .ok (⟨r.phase, isSpeech, started, none, speech⟩, r)

def advance (r : Recorder μ) (isSpeech : Bool) (frame : List UInt8) :
    Except Breach (Report × Recorder μ) := do
  let heard ← r.hear frame
  let counted ← heard.count isSpeech (r.samples - pad r.settings) (Audio.decode frame).length
  counted.settle isSpeech (isSpeech && (r.phase = .silence || r.phase = .complete))

def process (r : Recorder μ) (frame : List UInt8) : Except Breach (Report × Recorder μ) :=
  let (isSpeech, scorer) := r.scorer.judge r.settings (Audio.decode frame)
  advance { r with scorer } isSpeech frame

def take (r : Recorder μ) : Signal → Except Breach (Option Report × Recorder μ)
  | .frame bytes => (r.process bytes).map fun (report, r) => (some report, r)
  | .reset => .ok (none, r.reset)

def run (r : Recorder μ) : List Signal → Except Breach (List (Option Report) × Recorder μ)
  | [] => .ok ([], r)
  | signal :: rest => do
    let (report, r) ← r.take signal
    let (reports, r) ← run r rest
    .ok (report :: reports, r)

structure Sound (s : Settings) (r : Recorder μ) : Prop where
  settings : r.settings = s
  bytes : r.bytes.length = 2 * r.samples
  between : r.phase ≠ .complete
  opened : r.phase ≠ .silence → ∃ start, r.start = some start ∧ start + r.quiet ≤ r.samples ∧
    1 ≤ r.frames
  silent : r.phase = .silence →
    r.frames = 0 ∧ r.quietFrames = 0 ∧ r.quiet = 0 ∧ r.samples ≤ limit s

end Recorder

def Utterance.closing (u : Utterance) : Closing := .kept u.bytes u.rate u.start u.stop u.speech

def Outcome.report (o : Outcome) : Report where
  phase := o.phase
  isSpeech := o.isSpeech
  started := o.started
  closing := (o.utterance.map Utterance.closing).or (if o.discarded then some .short else none)
  speech := o.speech

def longestRun (since : Nat) : List Signal → Nat
  | [] => since
  | .frame _ :: rest => longestRun (since + 1) rest
  | .reset :: rest => max since (longestRun 0 rest)

def Segmenter.after {μ η : Type} (seg : Segmenter μ η) : List Signal → Segmenter μ η
  | [] => seg
  | signal :: rest => after (seg.take signal).2 rest

namespace Checked

theorem minus_of_le {n k : Nat} (h : k ≤ n) : minus n k = .ok (n - k) := if_pos h

theorem succ_of_lt {n : Nat} (h : n + 1 < twoTo 32) : succ n = .ok (n + 1) := if_pos h

/-- A slice of bytes that cuts no sample in two. -/
theorem slice_encode {sound : List Int16} {start stop : Nat} (order : start ≤ stop)
    (within : stop ≤ sound.length) :
    slice (Audio.encode sound) (2 * start) (2 * stop) =
      .ok (Audio.encode (sound.extract start stop)) := by
  have hlength := Audio.length_encode sound
  have hbounds : 2 * start ≤ 2 * stop ∧ 2 * stop ≤ (Audio.encode sound).length := by omega
  rw [slice, if_pos hbounds, Audio.extract_encode]

theorem slice_frame (frame : List UInt8) :
    slice frame 0 (2 * (Audio.decode frame).length) = .ok (Audio.encode (Audio.decode frame)) := by
  have hlength := Audio.length_decode frame
  have hbounds : 0 ≤ 2 * (Audio.decode frame).length ∧
      2 * (Audio.decode frame).length ≤ frame.length := by omega
  rw [slice, if_pos hbounds, Audio.encode_decode, List.extract_eq_take_drop]
  rfl

end Checked

variable {μ η : Type}

theorem le_longestRun (since : Nat) (signals : List Signal) : since ≤ longestRun since signals := by
  induction signals generalizing since with
  | nil => exact Nat.le_refl _
  | cons signal rest ih =>
    cases signal with
    | frame => exact Nat.le_of_succ_le (ih (since + 1))
    | reset => exact Nat.le_max_left _ _

theorem Activity.Opens.phase {activity : Activity} {onset frames quiet : Nat}
    (h : activity.Opens onset frames quiet) :
    activity.phase = .speaking ∨ activity.phase = .pause := by
  cases h with
  | speaking => exact .inl rfl
  | pausing => exact .inr rfl

namespace Recorder

inductive Counts (since : Nat) (r : Recorder μ) (activity : Activity) : Prop where
  | silent (silent : activity = .silent) (phase : r.phase = .silence) (frames : r.frames = 0)
      (quietFrames : r.quietFrames = 0) (quiet : r.quiet = 0)
      (within : r.samples ≤ limit r.settings)
  | opens (onset : Nat) (opens : activity.Opens onset r.frames r.quiet)
      (phase : r.phase = activity.phase) (start : r.start = some onset)
      (within : onset + r.quiet ≤ r.samples) (begun : 1 ≤ r.frames) (frames : r.frames ≤ since)
      (quietFrames : r.quietFrames ≤ since)

structure Keeps (s : Settings) (since : Nat) (r : Recorder μ) (seg : Segmenter μ η) : Prop where
  settings : r.settings = s
  same : seg.settings = r.settings
  scorer : r.scorer = seg.scorer
  bytes : r.bytes = Audio.encode seg.buffer.toList
  samples : r.samples = seg.buffer.size
  counts : Counts since r seg.activity

theorem hear_eq (r : Recorder μ) (frame : List UInt8) :
    r.hear frame = .ok
      { r with
        bytes := r.bytes ++ Audio.encode (Audio.decode frame)
        samples := r.samples + (Audio.decode frame).length } := by
  rw [hear, Checked.slice_frame]
  rfl

/-- A frame after which no utterance closes. -/
theorem advance_open {r heard counted : Recorder μ} {isSpeech : Bool} {frame : List UInt8}
    (hheard : r.hear frame = .ok heard)
    (hcounted : heard.count isSpeech (r.samples - pad r.settings) (Audio.decode frame).length =
      .ok counted)
    (goesOn : counted.phase ≠ .complete) :
    r.advance isSpeech frame = .ok
      (⟨counted.phase, isSpeech, isSpeech && (r.phase = .silence || r.phase = .complete), none,
        counted.frames * counted.settings.frameDuration⟩, counted) := by
  rw [advance, hheard]
  change (heard.count isSpeech _ _ >>= _) = _
  rw [hcounted]
  exact if_neg goesOn

/-- A frame with which an utterance closes. -/
theorem advance_close {r heard counted : Recorder μ} {isSpeech : Bool} {frame : List UInt8}
    {closing : Closing} (hheard : r.hear frame = .ok heard)
    (hcounted : heard.count isSpeech (r.samples - pad r.settings) (Audio.decode frame).length =
      .ok counted)
    (complete : counted.phase = .complete) (hfinish : counted.finish = .ok closing) :
    r.advance isSpeech frame = .ok
      (⟨.complete, isSpeech, isSpeech && (r.phase = .silence || r.phase = .complete), some closing,
        counted.frames * counted.settings.frameDuration⟩, counted.reset) := by
  rw [advance, hheard]
  change (heard.count isSpeech _ _ >>= _) = _
  rw [hcounted]
  change counted.settle isSpeech _ = _
  rw [settle, if_pos complete, hfinish]
  rfl

/-- In silence the recorder cuts off what the segmenter does. -/
theorem trim_eq {r : Recorder μ} {buffer : Array Int16}
    (bytes : r.bytes = Audio.encode buffer.toList) (samples : r.samples = buffer.size) :
    r.trim = .ok
      { r with
        bytes := Audio.encode (Segmenter.trim r.settings buffer).toList
        samples := (Segmenter.trim r.settings buffer).size } ∧
    (Segmenter.trim r.settings buffer).size ≤ limit r.settings := by
  unfold trim Segmenter.trim limit
  dsimp only
  rw [samples]
  by_cases short : buffer.size * 1000 ≤ 5000 * r.settings.sampleRate
  · rw [if_pos short, if_pos short, ← bytes, ← samples]
    exact ⟨rfl, by omega⟩
  · rw [if_neg short, if_neg short]
    generalize Audio.samplesOf (max 500 r.settings.padding) r.settings.sampleRate = keep
    have hdrop : buffer.size - min keep buffer.size = buffer.size - keep := by omega
    have hsize : (buffer.extract (buffer.size - keep) buffer.size).size = min keep buffer.size := by
      rw [Array.size_extract]
      omega
    have hlength : r.bytes.length = 2 * buffer.size := by
      rw [bytes, Audio.length_encode, Array.length_toList]
    have hslice : Checked.slice r.bytes (2 * (buffer.size - keep)) r.bytes.length =
        .ok (Audio.encode (buffer.extract (buffer.size - keep) buffer.size).toList) := by
      rw [hlength, bytes, Array.toList_extract]
      exact Checked.slice_encode (Nat.sub_le _ _) (Nat.le_of_eq Array.length_toList.symm)
    rw [Checked.minus_of_le (Nat.min_le_right _ _), hdrop, hsize]
    refine ⟨?_, by omega⟩
    change (Checked.slice r.bytes (2 * (buffer.size - keep)) r.bytes.length >>= _) = _
    rw [hslice]
    rfl

/-- The recorder closes an utterance as the segmenter does, and knows where it began. -/
theorem finish_eq {r : Recorder μ} {buffer : Array Int16} {onset : Nat}
    (bytes : r.bytes = Audio.encode buffer.toList) (samples : r.samples = buffer.size)
    (start : r.start = some onset) (stop : r.stop = some (r.samples - r.quiet + pad r.settings))
    (within : onset + r.quiet ≤ r.samples) :
    r.finish = .ok
      (((Segmenter.close r.settings buffer onset r.frames r.quiet).map Utterance.closing).getD
        .short) := by
  unfold finish Segmenter.close
  by_cases few : r.frames < r.settings.minFrames
  · rw [if_pos few, if_pos few]
    rfl
  · rw [if_neg few, if_neg few, start, stop, samples]
    rw [samples] at within
    have hlength : r.bytes.length = 2 * buffer.size := by
      rw [bytes, Audio.length_encode, Array.length_toList]
    have hfirst : min (2 * onset) r.bytes.length = 2 * onset := by omega
    generalize hstop : min (buffer.size - r.quiet + pad r.settings) buffer.size = stop
    have hlast : max (2 * stop) (2 * onset) = 2 * stop := by omega
    have hslice : Checked.slice r.bytes (2 * onset) (2 * stop) =
        .ok (Audio.encode (buffer.extract onset stop).toList) := by
      rw [bytes, Array.toList_extract]
      refine Checked.slice_encode (by omega) ?_
      rw [Array.length_toList]
      omega
    simp only [Option.getD_some, hstop, hfirst, hlast, hslice]
    rfl

theorem count_onset {r : Recorder μ} (phase : r.phase = .silence) (onset samples : Nat) :
    r.count true onset samples = .ok
      { r with
        phase := .speaking, start := some onset, frames := 1, quietFrames := 0, quiet := 0 } := by
  simp only [count, phase]

theorem count_silence {r : Recorder μ} (phase : r.phase = .silence) (onset samples : Nat) :
    r.count false onset samples = r.trim := by
  simp only [count, phase]

section
variable {r : Recorder μ} (opened : r.phase = .speaking ∨ r.phase = .pause)
include opened

theorem count_speech (few : r.frames + 1 < twoTo 32) (onset samples : Nat) :
    r.count true onset samples = .ok
      { r with phase := .speaking, frames := r.frames + 1, quietFrames := 0, quiet := 0 } := by
  rcases opened with phase | phase
  · simp only [count, phase, Checked.succ_of_lt few]
    rfl
  · simp only [count, phase, Checked.succ_of_lt few]
    rfl

theorem count_pause (few : r.quietFrames + 1 < twoTo 32) (onset : Nat) {samples : Nat}
    (short : r.quiet + samples < Audio.samplesOf r.settings.endSilence r.settings.sampleRate) :
    r.count false onset samples = .ok
      { r with
        phase := .pause, quietFrames := r.quietFrames + 1, quiet := r.quiet + samples } := by
  rcases opened with phase | phase
  · simp only [count, phase, Checked.succ_of_lt few, Except.bind, Bind.bind]
    exact if_pos short
  · simp only [count, phase, Checked.succ_of_lt few, Except.bind, Bind.bind]
    exact if_pos short

theorem count_close (few : r.quietFrames + 1 < twoTo 32) (onset : Nat) {samples : Nat}
    (long : Audio.samplesOf r.settings.endSilence r.settings.sampleRate ≤ r.quiet + samples)
    (within : r.quiet + samples ≤ r.samples) :
    r.count false onset samples = .ok
      { r with
        phase := .complete
        quietFrames := r.quietFrames + 1
        quiet := r.quiet + samples
        stop := some (r.samples - (r.quiet + samples) + pad r.settings) } := by
  have hminus := Checked.minus_of_le within
  rcases opened with phase | phase
  · simp only [count, phase, Checked.succ_of_lt few, Except.bind, Bind.bind,
      if_neg (Nat.not_lt.mpr long), hminus]
  · simp only [count, phase, Checked.succ_of_lt few, Except.bind, Bind.bind,
      if_neg (Nat.not_lt.mpr long), hminus]

end

def heard (r : Recorder μ) (sound : Array Int16) : Recorder μ :=
  { r with bytes := Audio.encode sound.toList, samples := sound.size }

namespace Keeps
variable {s : Settings} {since : Nat} {r : Recorder μ} {seg : Segmenter μ η}

theorem grows (h : Keeps s since r seg) (frame : List UInt8) :
    (seg.buffer ++ Audio.decode frame).size = r.samples + (Audio.decode frame).length := by
  rw [← Array.length_toList, h.samples, Array.toList_appendList, List.length_append,
    Array.length_toList]

theorem hear (h : Keeps s since r seg) (frame : List UInt8) :
    r.hear frame = .ok (r.heard (seg.buffer ++ Audio.decode frame)) := by
  have hbytes : Audio.encode (seg.buffer ++ Audio.decode frame).toList =
      r.bytes ++ Audio.encode (Audio.decode frame) := by
    rw [Array.toList_appendList, Audio.encode_append, h.bytes]
  rw [hear_eq, heard, h.grows, hbytes]

theorem reset (h : Keeps s since r seg) (hooked : η) (later : Nat) :
    Keeps s later r.reset { seg.reset with hooked } where
  settings := h.settings
  same := h.same
  scorer := congrArg Scorer.reset h.scorer
  bytes := rfl
  samples := rfl
  counts := .silent rfl rfl rfl rfl rfl (Nat.zero_le _)

theorem answers {isSpeech : Bool} {frame : List UInt8} {report : Report} {r' : Recorder μ}
    {o : Outcome × Segmenter μ η} (advance : r.advance isSpeech frame = .ok (report, r'))
    (same : report = o.1.report) (keeps : Keeps s since r' o.2) :
    ∃ r', r.advance isSpeech frame = .ok (o.1.report, r') ∧ Keeps s since r' o.2 :=
  ⟨r', same ▸ advance, keeps⟩

theorem advance_speech (h : Keeps s since r seg) (few : since + 1 < twoTo 32) (frame : List UInt8) :
    ∃ r', r.advance true frame = .ok ((seg.advance true (Audio.decode frame)).1.report, r') ∧
      Keeps s (since + 1) r' (seg.advance true (Audio.decode frame)).2 := by
  have hheard := h.hear frame
  have hgrows := h.grows frame
  cases h.counts with
  | silent silent phase =>
    have hcounted := count_onset (r := r.heard (seg.buffer ++ Audio.decode frame)) phase
      (r.samples - pad r.settings) (Audio.decode frame).length
    have hadvance := Recorder.advance_open hheard hcounted (by simp)
    have hwithin : r.samples - pad r.settings + 0 ≤ (seg.buffer ++ Audio.decode frame).size := by
      omega
    rw [Segmenter.advance_onset h.same silent, ← h.samples]
    refine answers hadvance ?_ ⟨h.settings, h.same, h.scorer, rfl, rfl, ?_⟩
    · simp [Outcome.report, phase, heard]
    · exact .opens _ .speaking rfl rfl hwithin (Nat.le_refl _) (Nat.le_add_left 1 since)
        (Nat.zero_le _)
  | opens onset opens phase start within begun frames quietFrames =>
    have hopened : r.phase = .speaking ∨ r.phase = .pause := by
      rw [phase]
      exact opens.phase
    have hcounted := count_speech (r := r.heard (seg.buffer ++ Audio.decode frame)) hopened
      (Nat.lt_of_le_of_lt (Nat.succ_le_succ frames) few)
      (r.samples - pad r.settings) (Audio.decode frame).length
    have hadvance := Recorder.advance_open hheard hcounted (by simp)
    have hwithin : onset + 0 ≤ (seg.buffer ++ Audio.decode frame).size := by omega
    rw [Segmenter.advance_speech h.same opens]
    refine answers hadvance ?_ ⟨h.settings, h.same, h.scorer, rfl, rfl, ?_⟩
    · rcases hopened with hphase | hphase <;> simp [Outcome.report, hphase, heard]
    · exact .opens onset .speaking rfl start hwithin (Nat.le_add_left 1 _) (Nat.succ_le_succ frames)
        (Nat.zero_le _)

theorem advance_silence (h : Keeps s since r seg) (few : since + 1 < twoTo 32)
    (frame : List UInt8) :
    ∃ r', r.advance false frame = .ok ((seg.advance false (Audio.decode frame)).1.report, r') ∧
      Keeps s (since + 1) r' (seg.advance false (Audio.decode frame)).2 := by
  have hheard := h.hear frame
  have hgrows := h.grows frame
  cases h.counts with
  | silent silent phase frames quietFrames quiet within =>
    obtain ⟨htrim, hlimit⟩ := trim_eq (r := r.heard (seg.buffer ++ Audio.decode frame)) rfl rfl
    have hcounted := (count_silence (r := r.heard (seg.buffer ++ Audio.decode frame)) phase
      (r.samples - pad r.settings) (Audio.decode frame).length).trans htrim
    have hphase : (r.heard (seg.buffer ++ Audio.decode frame)).phase = .silence := phase
    have hadvance := Recorder.advance_open hheard hcounted (by simp [hphase])
    rw [Segmenter.advance_silence h.same silent]
    refine answers hadvance ?_ ⟨h.settings, h.same, h.scorer, rfl, rfl, ?_⟩
    · simp [Outcome.report, phase, heard, frames]
    · exact .silent silent phase frames quietFrames quiet hlimit
  | opens onset opens phase start within begun frames quietFrames =>
    have hopened : r.phase = .speaking ∨ r.phase = .pause := by
      rw [phase]
      exact opens.phase
    have hstarted : (r.phase = .silence || r.phase = .complete) = false := by
      rcases hopened with hphase | hphase <;> simp [hphase]
    have hquiet : r.quietFrames + 1 < twoTo 32 :=
      Nat.lt_of_le_of_lt (Nat.succ_le_succ quietFrames) few
    have hwithin : onset + (r.quiet + (Audio.decode frame).length) ≤
        (seg.buffer ++ Audio.decode frame).size := by omega
    by_cases short : r.quiet + (Audio.decode frame).length <
        Audio.samplesOf r.settings.endSilence r.settings.sampleRate
    · have hcounted := count_pause (r := r.heard (seg.buffer ++ Audio.decode frame)) hopened hquiet
        (r.samples - pad r.settings) short
      have hadvance := Recorder.advance_open hheard hcounted (by simp)
      rw [Segmenter.advance_pause h.same opens _ short]
      refine answers hadvance ?_ ⟨h.settings, h.same, h.scorer, rfl, rfl, ?_⟩
      · simp [Outcome.report, heard]
      · exact .opens onset (.pausing _) rfl start hwithin begun (Nat.le_add_right_of_le frames)
          (Nat.succ_le_succ quietFrames)
    · have long := Nat.not_lt.mp short
      have hcounted := count_close (r := r.heard (seg.buffer ++ Audio.decode frame)) hopened hquiet
        (r.samples - pad r.settings) long (by simp only [heard]; omega)
      have hadvance := Recorder.advance_close hheard hcounted rfl
        (finish_eq rfl rfl start rfl hwithin)
      obtain ⟨hooked, hclose⟩ := Segmenter.advance_close h.same opens _ long
      rw [hclose]
      refine answers hadvance ?_ (h.reset hooked (since + 1))
      rw [Bool.false_and, Outcome.report]
      cases hutterance : Segmenter.close r.settings (seg.buffer ++ Audio.decode frame) onset
        r.frames (r.quiet + (Audio.decode frame).length) <;> simp [heard, hutterance]

theorem process (h : Keeps s since r seg) (few : since + 1 < twoTo 32) (frame : List UInt8) :
    ∃ r', r.process frame = .ok ((seg.process frame).1.report, r') ∧
      Keeps s (since + 1) r' (seg.process frame).2 := by
  have hjudge : r.scorer.judge r.settings (Audio.decode frame) =
      seg.scorer.judge seg.settings (Audio.decode frame) := by rw [h.scorer, h.same]
  unfold Recorder.process Segmenter.process
  dsimp only
  rw [hjudge]
  generalize seg.scorer.judge seg.settings (Audio.decode frame) = verdict
  obtain ⟨isSpeech, scorer⟩ := verdict
  have hcounts : Counts since { r with scorer } seg.activity := by
    cases h.counts with
    | silent silent phase frames quietFrames quiet within =>
      exact .silent silent phase frames quietFrames quiet within
    | opens onset opens phase start within begun frames quietFrames =>
      exact .opens onset opens phase start within begun frames quietFrames
  have hscored : Keeps s since { r with scorer } { seg with scorer } :=
    ⟨h.settings, h.same, rfl, h.bytes, h.samples, hcounts⟩
  cases isSpeech with
  | true => exact hscored.advance_speech few frame
  | false => exact hscored.advance_silence few frame

/-- As long as the counters have room for the frames to come, none of them fails. -/
theorem run (h : Keeps s since r seg) (signals : List Signal)
    (few : longestRun since signals < twoTo 32) :
    ∃ later r', r.run signals =
        .ok ((seg.outcomes signals).map (Option.map Outcome.report), r') ∧
      Keeps s later r' (seg.after signals) := by
  induction signals generalizing since r seg with
  | nil => exact ⟨since, r, rfl, h⟩
  | cons signal rest ih =>
    cases signal with
    | frame bytes =>
      have hroom : since + 1 < twoTo 32 := Nat.lt_of_le_of_lt (le_longestRun _ rest) few
      obtain ⟨r₁, hprocess, hkeeps⟩ := h.process hroom bytes
      obtain ⟨later, r₂, hrest, hlater⟩ := ih hkeeps few
      refine ⟨later, r₂, ?_, hlater⟩
      have htake : r.take (.frame bytes) = .ok (some (seg.process bytes).1.report, r₁) := by
        rw [Recorder.take, hprocess]
        rfl
      rw [Recorder.run, htake]
      change (r₁.run rest >>= _) = _
      rw [hrest]
      rfl
    | reset =>
      have hroom : longestRun 0 rest < twoTo 32 := Nat.lt_of_le_of_lt (Nat.le_max_right _ _) few
      obtain ⟨later, r₂, hrest, hlater⟩ := ih (h.reset seg.hooked 0) hroom
      refine ⟨later, r₂, ?_, hlater⟩
      change (r.reset.run rest >>= _) = _
      rw [hrest]
      rfl

theorem sound (h : Keeps s since r seg) : r.Sound s := by
  have hbytes : r.bytes.length = 2 * r.samples := by
    rw [h.bytes, Audio.length_encode, Array.length_toList, h.samples]
  cases h.counts with
  | silent silent phase frames quietFrames quiet within =>
    rw [h.settings] at within
    refine ⟨h.settings, hbytes, ?_, fun opened => absurd phase opened,
      fun _ => ⟨frames, quietFrames, quiet, within⟩⟩
    rw [phase]
    nofun
  | opens onset opens phase start within begun frames quietFrames =>
    rcases opens.phase with hphase | hphase
    all_goals
      rw [← phase] at hphase
      refine ⟨h.settings, hbytes, ?_, fun _ => ⟨onset, start, within, begun⟩, ?_⟩
      · rw [hphase]
        nofun
      · rw [hphase]
        nofun

/-- The phase, as it stands between two frames. -/
theorem phase (h : Keeps s since r seg) : r.phase = seg.phase := by
  cases h.counts with
  | silent silent phase =>
    rw [phase, Segmenter.phase, silent]
    rfl
  | opens onset opens phase => exact phase

end Keeps

end Recorder

theorem Activity.silent_or_opens (activity : Activity) :
    activity = .silent ∨ ∃ onset frames quiet, activity.Opens onset frames quiet := by
  cases activity with
  | silent => exact .inl rfl
  | speaking onset frames => exact .inr ⟨onset, frames, 0, .speaking⟩
  | pausing onset frames quiet => exact .inr ⟨onset, frames, quiet, .pausing quiet⟩

/-- An utterance closes with a frame exactly if it is kept or discarded. -/
theorem Segmenter.advance_closing (seg : Segmenter μ η) (isSpeech : Bool) (frame : List Int16) :
    (seg.advance isSpeech frame).1.phase = .complete ↔
      (seg.advance isSpeech frame).1.report.closing.isSome := by
  rcases seg.activity.silent_or_opens with silent | ⟨onset, frames, quiet, opens⟩
  · cases isSpeech with
    | true => simp [Segmenter.advance_onset rfl silent, Outcome.report]
    | false => simp [Segmenter.advance_silence rfl silent, Outcome.report]
  · cases isSpeech with
    | true => simp [Segmenter.advance_speech rfl opens, Outcome.report]
    | false =>
      by_cases short : quiet + frame.length <
          Audio.samplesOf seg.settings.endSilence seg.settings.sampleRate
      · simp [Segmenter.advance_pause rfl opens frame short, Outcome.report]
      · obtain ⟨hooked, hclose⟩ := Segmenter.advance_close rfl opens frame (Nat.not_lt.mp short)
        rw [hclose]
        cases h : Segmenter.close seg.settings (seg.buffer ++ frame) onset frames
          (quiet + frame.length) <;> simp [Outcome.report]

theorem Segmenter.outcomes_closing (seg : Segmenter μ η) (signals : List Signal) (o : Outcome)
    (h : some o ∈ seg.outcomes signals) : o.phase = .complete ↔ o.report.closing.isSome := by
  induction signals generalizing seg with
  | nil => cases h
  | cons signal rest ih =>
    rcases List.mem_cons.mp h with first | later
    · cases signal with
      | frame bytes =>
        rw [Option.some.inj first]
        exact Segmenter.advance_closing _ _ _
      | reset => cases first
    · exact ih _ later

theorem Outcome.report_started (o : Outcome) : o.report.closing ≠ some .startless := by
  rw [Outcome.report]
  cases o.utterance with
  | some u => nofun
  | none => cases o.discarded <;> nofun

/-- However a stream is cut into frames and reset, the counters of the segmenter agree with one
another after it: no difference, slice or count on the way has failed, and every utterance that
closed was kept or too short. -/
theorem counters_hold (s : Settings) (scorer : Scorer μ) (onStart onEnd : Option (Hook η))
    (hooked : η) (seg : Segmenter μ η) (signals : List Signal)
    (created : Segmenter.create s scorer onStart onEnd hooked = .ok seg)
    (few : longestRun 0 signals < twoTo 32) :
    ∃ reports r, (Recorder.blank s scorer).run signals = .ok (reports, r) ∧ r.Sound s ∧
      reports = (seg.outcomes signals).map (Option.map Outcome.report) ∧
      (∀ report, some report ∈ reports →
        (report.phase = .complete ↔ report.closing.isSome) ∧
          report.closing ≠ some .startless) ∧
      r.phase = (seg.after signals).phase ∧
      r.bytes = Audio.encode (seg.after signals).buffer.toList := by
  have hkeeps : Recorder.Keeps s 0 (Recorder.blank s scorer) seg := by
    unfold Segmenter.create at created
    split at created
    · cases created
    · cases created
      exact ⟨rfl, rfl, rfl, rfl, rfl, .silent rfl rfl rfl rfl rfl (Nat.zero_le _)⟩
  obtain ⟨later, r, hrun, hlater⟩ := hkeeps.run signals few
  refine ⟨_, r, hrun, hlater.sound, rfl, fun report hreport => ?_, hlater.phase, hlater.bytes⟩
  obtain ⟨o, ho, hmap⟩ := List.mem_map.mp hreport
  obtain ⟨o, rfl, rfl⟩ := Option.map_eq_some_iff.mp hmap
  exact ⟨seg.outcomes_closing signals o ho, o.report_started⟩

theorem hum_counters :
    ∃ reports r, (Recorder.blank brief (.model nonzero ())).run hum = .ok (reports, r) ∧
      r.Sound brief ∧ r.phase = .silence := by
  obtain ⟨reports, r, hrun, hsound, -, -, hphase, -⟩ :=
    counters_hold brief (.model nonzero ()) none none () _ hum rfl (by decide)
  refine ⟨reports, r, hrun, hsound, hphase.trans ?_⟩
  decide +kernel

end Dialogue.Speech
