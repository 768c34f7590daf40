import Dialogue.Speech.Segmenter
/-!
Where a stream is cut. Main statement: the utterances are those that are read off the whole stream
by position, although the segmenter keeps no more of it than the end.
-/
namespace Dialogue.Speech

open Segmenter (pad)

variable {μ η : Type}

inductive Signal where
  | frame (bytes : List UInt8)
  | reset

def Signal.samples : Signal → List Int16
  | frame bytes => Audio.decode bytes
  | reset => []

def stream (signals : List Signal) : List Int16 := signals.flatMap Signal.samples

structure Span where
  start : Nat
  stop : Nat
deriving DecidableEq

def Span.read (span : Span) (sound : List Int16) : List Int16 :=
  sound.extract span.start span.stop

structure Cut where
  base : Nat
  speech : List Span
  stop : Nat
deriving DecidableEq

namespace Cut

def onset (c : Cut) : Nat := (c.speech.head?.map Span.start).getD 0

def quiet (c : Cut) : Nat := (c.speech.getLast?.map Span.stop).getD 0

def audio (s : Settings) (c : Cut) : Span :=
  ⟨max c.base (c.onset - pad s), min (c.quiet + pad s) c.stop⟩

def isDue (s : Settings) (c : Cut) : Bool :=
  !c.speech.isEmpty && decide (Audio.samplesOf s.endSilence s.sampleRate ≤ c.stop - c.quiet)

def isKept (s : Settings) (c : Cut) : Bool := decide (s.minFrames ≤ c.speech.length)

def reset (c : Cut) : Cut := ⟨c.stop, [], c.stop⟩

def hear (c : Cut) (isSpeech : Bool) (samples : Nat) : Cut where
  base := c.base
  speech := if isSpeech then c.speech ++ [⟨c.stop, c.stop + samples⟩] else c.speech
  stop := c.stop + samples

end Cut

/-- What is known of a frame by its position in the stream: the verdict, whether an utterance
opens with it, the speech frames of the open utterance up to it, and what closes with it. -/
structure Mark where
  isSpeech : Bool
  started : Bool
  frames : Nat
  closed : Option Cut

namespace Mark

def phase (m : Mark) : Phase :=
  if m.closed.isSome then .complete
  else if m.isSpeech then .speaking
  else if m.frames = 0 then .silence
  else .pause

/-- What is to come of the frame; where the utterance stood in the sound kept is left open. -/
def outcome (s : Settings) (sound : List Int16) (m : Mark) : Outcome where
  phase := m.phase
  isSpeech := m.isSpeech
  started := m.started
  utterance := (m.closed.filter (Cut.isKept s)).map fun c =>
    ⟨(c.audio s).read sound, s.sampleRate, 0, 0, c.speech.length * s.frameDuration⟩
  discarded := m.closed.any fun c => !c.isKept s
  speech := m.frames * s.frameDuration

end Mark

def Utterance.unplaced (u : Utterance) : Utterance := { u with start := 0, stop := 0 }

def Outcome.unplaced (o : Outcome) : Outcome :=
  { o with utterance := o.utterance.map Utterance.unplaced }

/-- Follows a stream by position alone; nothing of the sound is kept. -/
structure Tracker (μ : Type) where
  scorer : Scorer μ
  cut : Cut

namespace Tracker

def start (scorer : Scorer μ) : Tracker μ := ⟨scorer, ⟨0, [], 0⟩⟩

def reset (t : Tracker μ) : Tracker μ := ⟨t.scorer.reset, t.cut.reset⟩

def advance (s : Settings) (t : Tracker μ) (isSpeech : Bool) (samples : Nat) : Mark × Tracker μ :=
  let cut := t.cut.hear isSpeech samples
  let started := isSpeech && t.cut.speech.isEmpty
  if !isSpeech && cut.isDue s then
    (⟨isSpeech, started, cut.speech.length, some cut⟩, reset { t with cut })
  else (⟨isSpeech, started, cut.speech.length, none⟩, { t with cut })

def process (s : Settings) (t : Tracker μ) (frame : List UInt8) : Mark × Tracker μ :=
  let samples := Audio.decode frame
  let (isSpeech, scorer) := t.scorer.judge s samples
  advance s { t with scorer } isSpeech samples.length

def take (s : Settings) (t : Tracker μ) : Signal → Option Mark × Tracker μ
  | .frame bytes => (some (t.process s bytes).1, (t.process s bytes).2)
  | .reset => (none, t.reset)

def marks (s : Settings) (t : Tracker μ) : List Signal → List (Option Mark)
  | [] => []
  | signal :: rest => (t.take s signal).1 :: marks s (t.take s signal).2 rest

def cuts (s : Settings) (t : Tracker μ) (signals : List Signal) : List Cut :=
  (t.marks s signals).filterMap fun mark => mark.bind Mark.closed

end Tracker

namespace Segmenter

def take (seg : Segmenter μ η) : Signal → Option Outcome × Segmenter μ η
  | .frame bytes => (some (seg.process bytes).1, (seg.process bytes).2)
  | .reset => (none, seg.reset)

def outcomes (seg : Segmenter μ η) : List Signal → List (Option Outcome)
  | [] => []
  | signal :: rest => (seg.take signal).1 :: outcomes (seg.take signal).2 rest

end Segmenter

namespace Cut
variable {c : Cut} {s : Settings}

@[simp] theorem hear_base (isSpeech : Bool) (n : Nat) : (c.hear isSpeech n).base = c.base := rfl

@[simp] theorem hear_stop (isSpeech : Bool) (n : Nat) :
    (c.hear isSpeech n).stop = c.stop + n := rfl

@[simp] theorem hear_silence (n : Nat) : (c.hear false n).speech = c.speech := rfl

@[simp] theorem hear_speech (n : Nat) :
    (c.hear true n).speech = c.speech ++ [⟨c.stop, c.stop + n⟩] := rfl

@[simp] theorem quiet_silence (n : Nat) : (c.hear false n).quiet = c.quiet := rfl

@[simp] theorem quiet_speech (n : Nat) : (c.hear true n).quiet = c.stop + n := by simp [quiet]

theorem onset_first (h : c.speech = []) (n : Nat) : (c.hear true n).onset = c.stop := by
  simp [onset, h]

theorem onset_later (h : c.speech ≠ []) (n : Nat) : (c.hear true n).onset = c.onset := by
  obtain ⟨first, rest, e⟩ := List.exists_cons_of_ne_nil h
  simp [onset, e]

/-- Once an utterance is open, it stays where it begins. -/
theorem audio_start_hear (h : c.speech ≠ []) (isSpeech : Bool) (n : Nat) :
    ((c.hear isSpeech n).audio s).start = (c.audio s).start := by
  cases isSpeech with
  | false => rfl
  | true => simp only [audio, hear_base, onset_later h]

theorem isDue_eq {n quiet : Nat} (h : c.speech ≠ [])
    (last : (c.hear false n).quiet + quiet = (c.hear false n).stop) :
    (c.hear false n).isDue s = decide (Audio.samplesOf s.endSilence s.sampleRate ≤ quiet) := by
  have hgap : (c.hear false n).stop - (c.hear false n).quiet = quiet := by omega
  have hopen : (c.hear false n).speech.isEmpty = false := by simpa using h
  rw [isDue, hgap, hopen]
  rfl

structure Sound (c : Cut) : Prop where
  base : c.base ≤ c.stop
  inside : ∀ span ∈ c.speech, c.onset ≤ span.start ∧ span.stop ≤ c.quiet
  order : c.speech ≠ [] → c.base ≤ c.onset ∧ c.onset ≤ c.quiet ∧ c.quiet ≤ c.stop

namespace Sound

theorem reset (c : Cut) : c.reset.Sound where
  base := Nat.le_refl _
  inside := by simp [Cut.reset]
  order h := absurd rfl h

theorem silence (h : c.Sound) (n : Nat) : (c.hear false n).Sound where
  base := Nat.le_add_right_of_le h.base
  inside := h.inside
  order hne := by
    obtain ⟨hbase, hopen, hquiet⟩ := h.order hne
    exact ⟨hbase, hopen, Nat.le_add_right_of_le hquiet⟩

theorem speech (h : c.Sound) (n : Nat) : (c.hear true n).Sound := by
  have hbase := h.base
  by_cases hne : c.speech = []
  · have honset := onset_first hne n
    refine ⟨Nat.le_add_right_of_le hbase, ?_, fun _ => ?_⟩
    · simp [hne, honset]
    · simp only [honset, quiet_speech, hear_base, hear_stop]
      omega
  · have honset := onset_later hne n
    obtain ⟨hb, ho, hq⟩ := h.order hne
    refine ⟨Nat.le_add_right_of_le hbase, ?_, fun _ => ?_⟩
    · intro span hspan
      rw [honset, quiet_speech]
      rw [hear_speech] at hspan
      rcases List.mem_append.mp hspan with hspan | hspan
      · have hinside := h.inside span hspan
        omega
      · rw [List.mem_singleton.mp hspan]
        dsimp only
        omega
    · simp only [honset, quiet_speech, hear_base, hear_stop]
      omega

theorem hear (h : c.Sound) (isSpeech : Bool) (n : Nat) : (c.hear isSpeech n).Sound := by
  cases isSpeech with
  | false => exact h.silence n
  | true => exact h.speech n

/-- Every speech frame is in the audio, which reaches neither behind the reset nor beyond the
end. -/
theorem audio (h : c.Sound) (hne : c.speech ≠ []) (s : Settings) :
    (∀ span ∈ c.speech, (c.audio s).start ≤ span.start ∧ span.stop ≤ (c.audio s).stop) ∧
      c.base ≤ (c.audio s).start ∧ (c.audio s).stop ≤ c.stop := by
  obtain ⟨hb, -, hq⟩ := h.order hne
  refine ⟨fun span hspan => ?_, Nat.le_max_left _ _, Nat.min_le_right _ _⟩
  have hinside := h.inside span hspan
  simp only [Cut.audio]
  omega

end Sound
end Cut

namespace Tracker
variable {s : Settings} {t : Tracker μ}

theorem advance_closed {isSpeech : Bool} {n : Nat} {c : Cut}
    (h : (t.advance s isSpeech n).1.closed = some c) :
    c = t.cut.hear isSpeech n ∧ c.speech ≠ [] ∧ (t.advance s isSpeech n).2.cut = c.reset := by
  unfold advance at h ⊢
  dsimp only at h ⊢
  split
  · next due =>
    rw [if_pos due] at h
    cases h
    simp only [Cut.isDue, Bool.and_eq_true, Bool.not_eq_true', List.isEmpty_eq_false_iff] at due
    exact ⟨rfl, due.2.1, rfl⟩
  · next due =>
    rw [if_neg due] at h
    cases h

theorem advance_open {isSpeech : Bool} {n : Nat}
    (h : (t.advance s isSpeech n).1.closed = none) :
    (t.advance s isSpeech n).2.cut = t.cut.hear isSpeech n := by
  unfold advance at h ⊢
  dsimp only at h ⊢
  split
  · next due =>
    rw [if_pos due] at h
    cases h
  · rfl

structure Advances (t : Tracker μ) (n : Nat) (closed : Option Cut) (t' : Tracker μ) : Prop where
  sound : t'.cut.Sound
  base : t.cut.base ≤ t'.cut.base
  stop : t'.cut.stop = t.cut.stop + n
  closed : ∀ c, closed = some c →
    c.Sound ∧ c.speech ≠ [] ∧ c.base = t.cut.base ∧ c.stop = t.cut.stop + n ∧
      c.stop = t'.cut.base

theorem take_advances (h : t.cut.Sound) (signal : Signal) :
    Advances t signal.samples.length ((t.take s signal).1.bind Mark.closed)
      (t.take s signal).2 := by
  cases signal with
  | reset =>
    refine ⟨.reset t.cut, h.base, rfl, ?_⟩
    rintro c ⟨⟩
  | frame bytes =>
    let t₀ : Tracker μ := { t with scorer := (t.scorer.judge s (Audio.decode bytes)).2 }
    let isSpeech := (t.scorer.judge s (Audio.decode bytes)).1
    let n := (Audio.decode bytes).length
    suffices Advances t n (t₀.advance s isSpeech n).1.closed (t₀.advance s isSpeech n).2 from this
    have hsound : (t.cut.hear isSpeech n).Sound := h.hear isSpeech n
    cases hclosed : (t₀.advance s isSpeech n).1.closed with
    | none =>
      have hcut : (t₀.advance s isSpeech n).2.cut = t.cut.hear isSpeech n := advance_open hclosed
      refine ⟨by rw [hcut]; exact hsound, by rw [hcut]; exact Nat.le_refl _, by rw [hcut]; rfl, ?_⟩
      rintro c ⟨⟩
    | some c =>
      obtain ⟨hc, hne, hcut⟩ := advance_closed hclosed
      have hc : c = t.cut.hear isSpeech n := hc
      have hbase : t.cut.base ≤ c.stop := by
        rw [hc]
        exact hsound.base
      refine ⟨by rw [hcut]; exact .reset c, by rw [hcut]; exact hbase, ?_, ?_⟩
      · rw [hcut, hc]
        rfl
      · rintro _ ⟨⟩
        refine ⟨by rw [hc]; exact hsound, hne, by rw [hc]; rfl, by rw [hc]; rfl, ?_⟩
        rw [hcut]
        rfl

theorem cuts_cons (signal : Signal) (rest : List Signal) :
    t.cuts s (signal :: rest) =
      ((t.take s signal).1.bind Mark.closed).toList ++ (t.take s signal).2.cuts s rest := by
  rw [cuts, marks, List.filterMap_cons]
  cases (t.take s signal).1.bind Mark.closed with
  | none => rfl
  | some c => rfl

/-- What closes in a run is in order: none begins before the one before it has ended. -/
theorem cuts_sound (h : t.cut.Sound) (signals : List Signal) :
    (∀ c ∈ t.cuts s signals, c.Sound ∧ c.speech ≠ [] ∧ t.cut.base ≤ c.base ∧
      c.stop ≤ t.cut.stop + (stream signals).length) ∧
    (t.cuts s signals).Pairwise fun c d => c.stop ≤ d.base := by
  induction signals generalizing t with
  | nil => simp [cuts, marks]
  | cons signal rest ih =>
    obtain ⟨sound, base, stop, closed⟩ := take_advances (s := s) h signal
    obtain ⟨hlater, hpairs⟩ := ih sound
    have hlength : (stream (signal :: rest)).length =
        signal.samples.length + (stream rest).length := by simp [stream]
    rw [cuts_cons]
    refine ⟨fun c hc => ?_, ?_⟩
    · rw [List.mem_append, Option.mem_toList] at hc
      rcases hc with hc | hc
      · obtain ⟨hsound, hne, hbase, hstop, -⟩ := closed c hc
        exact ⟨hsound, hne, by omega, by omega⟩
      · obtain ⟨hsound, hne, hbase, hstop⟩ := hlater c hc
        exact ⟨hsound, hne, by omega, by omega⟩
    · rw [List.pairwise_append]
      refine ⟨?_, hpairs, fun c hc d hd => ?_⟩
      · cases (t.take s signal).1.bind Mark.closed <;> simp
      · have hstop := (closed c (Option.mem_toList.mp hc)).2.2.2.2
        have hbase := (hlater d hd).2.2.1
        omega

end Tracker

/-- An utterance is open from an offset in the sound kept. It has so many speech frames, and so many
quiet samples since the last of them. -/
inductive Activity.Opens (onset frames : Nat) : Nat → Activity → Prop where
  | speaking : Opens onset frames 0 (.speaking onset frames)
  | pausing (quiet : Nat) : Opens onset frames quiet (.pausing onset frames quiet)

namespace Segmenter
variable {s : Settings} {seg : Segmenter μ η} {onset frames quiet : Nat}

theorem advance_onset (hs : seg.settings = s) (h : seg.activity = .silent)
    (samples : List Int16) :
    seg.advance true samples =
      (⟨.speaking, true, true, none, false, 1 * s.frameDuration⟩,
        { seg.hear samples with
          activity := .speaking (seg.buffer.size - pad s) 1
          hooked := fire seg.onStart seg.hooked }) := by
  cases seg
  cases hs
  cases h
  rfl

theorem advance_silence (hs : seg.settings = s) (h : seg.activity = .silent)
    (samples : List Int16) :
    seg.advance false samples =
      (⟨.silence, false, false, none, false, 0⟩,
        { seg with buffer := trim s (seg.buffer ++ samples) }) := by
  cases seg
  cases hs
  cases h
  rfl

theorem advance_speech (hs : seg.settings = s) (h : seg.activity.Opens onset frames quiet)
    (samples : List Int16) :
    seg.advance true samples =
      (⟨.speaking, true, false, none, false, (frames + 1) * s.frameDuration⟩,
        { seg.hear samples with activity := .speaking onset (frames + 1) }) := by
  cases seg
  cases hs
  cases h <;> rfl

theorem advance_pause (hs : seg.settings = s) (h : seg.activity.Opens onset frames quiet)
    (samples : List Int16)
    (short : quiet + samples.length < Audio.samplesOf s.endSilence s.sampleRate) :
    seg.advance false samples =
      (⟨.pause, false, false, none, false, frames * s.frameDuration⟩,
        { seg.hear samples with activity := .pausing onset frames (quiet + samples.length) }) := by
  cases seg
  cases hs
  cases h with
  | speaking =>
    rw [Nat.zero_add] at short ⊢
    exact if_pos short
  | pausing => exact if_pos short

theorem advance_complete (hs : seg.settings = s) (h : seg.activity.Opens onset frames quiet)
    (samples : List Int16)
    (long : Audio.samplesOf s.endSilence s.sampleRate ≤ quiet + samples.length) :
    let utterance := close s (seg.buffer ++ samples) onset frames (quiet + samples.length)
    seg.advance false samples =
      (⟨.complete, false, false, utterance, utterance.isNone, frames * s.frameDuration⟩,
        { seg.reset with
          hooked := if utterance.isSome then fire seg.onEnd seg.hooked else seg.hooked }) := by
  cases seg
  cases hs
  cases h with
  | speaking =>
    rw [Nat.zero_add] at long ⊢
    exact if_neg (Nat.not_lt.mpr long)
  | pausing => exact if_neg (Nat.not_lt.mpr long)

/-- What the hooks make of a closing does not matter to the sound. -/
theorem advance_close (hs : seg.settings = s) (h : seg.activity.Opens onset frames quiet)
    (samples : List Int16)
    (long : Audio.samplesOf s.endSilence s.sampleRate ≤ quiet + samples.length) :
    let utterance := close s (seg.buffer ++ samples) onset frames (quiet + samples.length)
    ∃ hooked, seg.advance false samples =
      (⟨.complete, false, false, utterance, utterance.isNone, frames * s.frameDuration⟩,
        { seg.reset with hooked }) :=
  ⟨_, advance_complete hs h samples long⟩

end Segmenter

/-- What a segmenter knows of an open utterance, given the position from which it keeps the sound.
In silence it keeps all that the padding may reach. -/
inductive Agrees (s : Settings) (c : Cut) (kept : Nat) (activity : Activity) : Prop where
  | silent (silent : activity = .silent) (speechless : c.speech = [])
      (padding : kept = c.base ∨ pad s ≤ c.stop - kept)
  | opens (onset quiet : Nat) (opens : activity.Opens onset c.speech.length quiet)
      (begun : c.speech ≠ []) (first : kept + onset = (c.audio s).start)
      (last : c.quiet + quiet = c.stop) (held : kept ≤ c.quiet)

structure Follows (s : Settings) (seg : Segmenter μ η) (t : Tracker μ) (past : List Int16)
    (kept : Nat) : Prop where
  settings : seg.settings = s
  scorer : seg.scorer = t.scorer
  sound : t.cut.Sound
  stop : t.cut.stop = past.length
  buffer : seg.buffer.toList = past.drop kept
  base : t.cut.base ≤ kept
  within : kept ≤ past.length
  agrees : Agrees s t.cut kept seg.activity

namespace Segmenter

theorem pad_le (s : Settings) : pad s ≤ Audio.samplesOf (max 500 s.padding) s.sampleRate := by
  have hpadding := Nat.mul_le_mul_right s.sampleRate (Nat.le_max_right 500 s.padding)
  exact Nat.div_le_div_right (Nat.add_le_add_right hpadding 500)

/-- What is cut off in silence is out of the reach of the padding. -/
theorem trim_kept (s : Settings) (buffer : Array Int16) :
    ∃ cut, (trim s buffer).toList = buffer.toList.drop cut ∧ cut ≤ buffer.size ∧
      (cut = 0 ∨ pad s ≤ buffer.size - cut) := by
  have hpad := pad_le s
  unfold trim
  dsimp only
  split
  · exact ⟨0, rfl, Nat.zero_le _, .inl rfl⟩
  · refine ⟨buffer.size - Audio.samplesOf (max 500 s.padding) s.sampleRate, ?_, Nat.sub_le _ _, ?_⟩
    · rw [Array.toList_extract, List.extract_eq_take_drop, List.take_of_length_le]
      simp
    · omega

end Segmenter

namespace Follows
variable {s : Settings} {seg : Segmenter μ η} {t : Tracker μ} {past : List Int16} {kept : Nat}

theorem hear (h : Follows s seg t past kept) (samples : List Int16) :
    (seg.buffer ++ samples).toList = (past ++ samples).drop kept := by
  rw [List.drop_append_of_le_length h.within, ← h.buffer]
  simp

theorem size (h : Follows s seg t past kept) : seg.buffer.size = t.cut.stop - kept := by
  rw [h.stop, ← Array.length_toList, h.buffer, List.length_drop]

/-- A frame with which nothing closes and nothing is cut off. -/
theorem goOn (h : Follows s seg t past kept) {isSpeech : Bool} {samples : List Int16}
    {activity : Activity} (agrees : Agrees s (t.cut.hear isSpeech samples.length) kept activity)
    (hooked : η) :
    Follows s { seg.hear samples with activity, hooked }
      { t with cut := t.cut.hear isSpeech samples.length } (past ++ samples) kept where
  settings := h.settings
  scorer := h.scorer
  sound := h.sound.hear isSpeech samples.length
  stop := by rw [List.length_append, Cut.hear_stop, h.stop]
  buffer := h.hear samples
  base := h.base
  within := by
    have hwithin := h.within
    rw [List.length_append]
    omega
  agrees := agrees

theorem reset (h : Follows s seg t past kept) (hooked : η) :
    Follows s { seg.reset with hooked } t.reset past past.length where
  settings := h.settings
  scorer := congrArg Scorer.reset h.scorer
  sound := .reset t.cut
  stop := h.stop
  buffer := by simp [Segmenter.reset]
  base := Nat.le_of_eq h.stop
  within := Nat.le_refl _
  agrees := .silent rfl rfl (.inl h.stop.symm)

theorem trimmed (h : Follows s seg t past kept) (silent : seg.activity = .silent)
    (speechless : t.cut.speech = []) (padding : kept = t.cut.base ∨ pad s ≤ t.cut.stop - kept)
    (samples : List Int16) :
    ∃ kept', Follows s { seg with buffer := Segmenter.trim s (seg.buffer ++ samples) }
      { t with cut := t.cut.hear false samples.length } (past ++ samples) kept' := by
  obtain ⟨cut, hcut, hsize, hreach⟩ := Segmenter.trim_kept s (seg.buffer ++ samples)
  have hgrown : (seg.buffer ++ samples).size = t.cut.stop + samples.length - kept := by
    rw [← Array.length_toList, h.hear, List.length_drop, List.length_append, h.stop]
  have hwithin := h.within
  have hbase := h.base
  have hstop := h.stop
  rw [hgrown] at hsize hreach
  -- what was cut off before, or is now, lies further back than the padding reaches
  refine ⟨kept + cut, h.settings, h.scorer, h.sound.silence samples.length, ?_, ?_, ?_, ?_, ?_⟩
  · rw [List.length_append, Cut.hear_stop, h.stop]
  · rw [hcut, h.hear, List.drop_drop]
  · rw [Cut.hear_base]
    omega
  · rw [List.length_append]
    omega
  · refine .silent silent speechless ?_
    rw [Cut.hear_base, Cut.hear_stop]
    omega

end Follows

theorem extract_drop (sound : List Int16) (kept start stop : Nat) :
    (sound.drop kept).extract start stop = sound.extract (kept + start) (kept + stop) := by
  rw [List.extract_eq_take_drop, List.extract_eq_take_drop, List.drop_drop, Nat.add_sub_add_left]

theorem close_unplaced (s : Settings) {buffer : Array Int16} {sound : List Int16} {c : Cut}
    {kept onset quiet : Nat} (hbuffer : buffer.toList = sound.drop kept)
    (hstop : c.stop = sound.length) (first : kept + onset = (c.audio s).start)
    (last : c.quiet + quiet = c.stop) (held : kept ≤ c.quiet) :
    (Segmenter.close s buffer onset c.speech.length quiet).map Utterance.unplaced =
      ((some c).filter (Cut.isKept s)).map fun c =>
        ⟨(c.audio s).read sound, s.sampleRate, 0, 0, c.speech.length * s.frameDuration⟩ := by
  have hsize : buffer.size = c.stop - kept := by
    rw [← Array.length_toList, hbuffer, List.length_drop, hstop]
  unfold Segmenter.close
  by_cases few : c.speech.length < s.minFrames
  · have hkept : c.isKept s = false := by
      rw [Cut.isKept, decide_eq_false_iff_not]
      omega
    rw [if_pos few, Option.filter_some, hkept]
    rfl
  · have hkept : c.isKept s = true := by
      rw [Cut.isKept, decide_eq_true_iff]
      omega
    have hend : kept + min (buffer.size - quiet + pad s) buffer.size = (c.audio s).stop := by
      simp only [Cut.audio]
      omega
    have hsamples : (buffer.extract onset (min (buffer.size - quiet + pad s) buffer.size)).toList =
        (c.audio s).read sound := by
      rw [Array.toList_extract, hbuffer, extract_drop, first, hend]
      rfl
    rw [if_neg few, Option.filter_some, hkept]
    simp only [Option.map_some, if_true, Utterance.unplaced, hsamples]

theorem close_isNone (s : Settings) (buffer : Array Int16) (c : Cut) (onset quiet : Nat) :
    (Segmenter.close s buffer onset c.speech.length quiet).isNone = !c.isKept s := by
  unfold Segmenter.close Cut.isKept
  split
  · next few => simp [Nat.not_le.mpr few]
  · next enough => simp [Nat.not_lt.mp enough]

namespace Follows
variable {s : Settings} {seg : Segmenter μ η} {t : Tracker μ} {past : List Int16} {kept : Nat}

theorem advance_speech (h : Follows s seg t past kept) (samples : List Int16) :
    Follows s (seg.advance true samples).2 (t.advance s true samples.length).2
        (past ++ samples) kept ∧
      (seg.advance true samples).1.unplaced =
        (t.advance s true samples.length).1.outcome s (past ++ samples) := by
  have htracker : t.advance s true samples.length =
      (⟨true, t.cut.speech.isEmpty, t.cut.speech.length + 1, none⟩,
        { t with cut := t.cut.hear true samples.length }) := by simp [Tracker.advance]
  have hbase := h.base
  have hstop := h.stop
  have hwithin := h.within
  rw [htracker]
  cases h.agrees with
  | silent silent speechless padding =>
    rw [Segmenter.advance_onset h.settings silent]
    have honset := Cut.onset_first speechless samples.length
    refine ⟨h.goOn (.opens (seg.buffer.size - pad s) 0 ?_ ?_ ?_ ?_ ?_) _, ?_⟩
    · rw [Cut.hear_speech, speechless]
      exact .speaking
    · simp
    · -- the padding reaches back to the reset, or to sound that is still kept
      simp only [Cut.audio, Cut.hear_base, honset, h.size]
      omega
    · rw [Cut.quiet_speech, Cut.hear_stop, Nat.add_zero]
    · rw [Cut.quiet_speech]
      omega
    · simp [Outcome.unplaced, Mark.outcome, Mark.phase, speechless]
  | opens onset quiet opens begun first last held =>
    rw [Segmenter.advance_speech h.settings opens]
    refine ⟨h.goOn (.opens onset 0 ?_ ?_ ?_ ?_ ?_) _, ?_⟩
    · rw [Cut.hear_speech, List.length_append]
      exact .speaking
    · simp
    · rw [first, Cut.audio_start_hear begun]
    · rw [Cut.quiet_speech, Cut.hear_stop, Nat.add_zero]
    · rw [Cut.quiet_speech]
      omega
    · simp [Outcome.unplaced, Mark.outcome, Mark.phase, begun]

theorem advance_silence (h : Follows s seg t past kept) (samples : List Int16) :
    ∃ kept', Follows s (seg.advance false samples).2 (t.advance s false samples.length).2
        (past ++ samples) kept' ∧
      (seg.advance false samples).1.unplaced =
        (t.advance s false samples.length).1.outcome s (past ++ samples) := by
  cases h.agrees with
  | silent silent speechless padding =>
    have htracker : t.advance s false samples.length =
        (⟨false, false, 0, none⟩, { t with cut := t.cut.hear false samples.length }) := by
      simp [Tracker.advance, Cut.isDue, speechless]
    obtain ⟨kept', hkept⟩ := h.trimmed silent speechless padding samples
    rw [Segmenter.advance_silence h.settings silent, htracker]
    exact ⟨kept', hkept, by simp [Outcome.unplaced, Mark.outcome, Mark.phase]⟩
  | opens onset quiet opens begun first last held =>
    have hstart := Cut.audio_start_hear (s := s) begun false samples.length
    have hlast : (t.cut.hear false samples.length).quiet + (quiet + samples.length) =
        (t.cut.hear false samples.length).stop := by
      rw [Cut.quiet_silence, Cut.hear_stop, ← last, Nat.add_assoc]
    have hagrees : Agrees s (t.cut.hear false samples.length) kept
        (.pausing onset t.cut.speech.length (quiet + samples.length)) :=
      .opens onset _ (.pausing _) begun (first.trans hstart.symm) hlast held
    by_cases short : quiet + samples.length < Audio.samplesOf s.endSilence s.sampleRate
    · have htracker : t.advance s false samples.length =
          (⟨false, false, t.cut.speech.length, none⟩,
            { t with cut := t.cut.hear false samples.length }) := by
        simp [Tracker.advance, Cut.isDue_eq begun hlast, Nat.not_le.mpr short]
      rw [Segmenter.advance_pause h.settings opens samples short, htracker]
      exact ⟨kept, h.goOn hagrees _, by simp [Outcome.unplaced, Mark.outcome, Mark.phase, begun]⟩
    · have long := Nat.not_lt.mp short
      have htracker : t.advance s false samples.length =
          (⟨false, false, t.cut.speech.length, some (t.cut.hear false samples.length)⟩,
            Tracker.reset { t with cut := t.cut.hear false samples.length }) := by
        simp [Tracker.advance, Cut.isDue_eq begun hlast, long]
      have hstop : (t.cut.hear false samples.length).stop = (past ++ samples).length := by
        rw [Cut.hear_stop, List.length_append, h.stop]
      have hclosed := close_unplaced s (h.hear samples) hstop (first.trans hstart.symm) hlast held
      have hdiscarded := close_isNone s (seg.buffer ++ samples) (t.cut.hear false samples.length)
        onset (quiet + samples.length)
      rw [Cut.hear_silence] at hclosed hdiscarded
      obtain ⟨hooked, hclose⟩ := Segmenter.advance_close h.settings opens samples long
      rw [hclose, htracker]
      -- the utterance closes where the stream stands once the frame has been heard
      refine ⟨_, (h.goOn hagrees seg.hooked).reset hooked, ?_⟩
      simp only [Outcome.unplaced, hclosed, hdiscarded]
      rfl

theorem process (h : Follows s seg t past kept) (bytes : List UInt8) :
    ∃ kept', Follows s (seg.process bytes).2 (t.process s bytes).2 (past ++ Audio.decode bytes)
        kept' ∧
      (seg.process bytes).1.unplaced =
        (t.process s bytes).1.outcome s (past ++ Audio.decode bytes) := by
  have hjudge : seg.scorer.judge seg.settings (Audio.decode bytes) =
      t.scorer.judge s (Audio.decode bytes) := by rw [h.scorer, h.settings]
  unfold Segmenter.process Tracker.process
  dsimp only
  rw [hjudge]
  generalize t.scorer.judge s (Audio.decode bytes) = verdict
  obtain ⟨isSpeech, scorer⟩ := verdict
  have hscored : Follows s { seg with scorer } { t with scorer } past kept :=
    ⟨h.settings, rfl, h.sound, h.stop, h.buffer, h.base, h.within, h.agrees⟩
  cases isSpeech with
  | true => exact ⟨kept, hscored.advance_speech _⟩
  | false => exact hscored.advance_silence _

theorem take (h : Follows s seg t past kept) (signal : Signal) :
    ∃ kept', Follows s (seg.take signal).2 (t.take s signal).2 (past ++ signal.samples) kept' ∧
      (seg.take signal).1.map Outcome.unplaced =
        (t.take s signal).1.map (Mark.outcome s (past ++ signal.samples)) := by
  cases signal with
  | frame bytes =>
    obtain ⟨kept', hnext, houtcome⟩ := h.process bytes
    exact ⟨kept', hnext, congrArg some houtcome⟩
  | reset =>
    refine ⟨past.length, ?_, rfl⟩
    rw [Signal.samples, List.append_nil]
    exact h.reset seg.hooked

end Follows

theorem extract_append {sound later : List Int16} {stop : Nat} (h : stop ≤ sound.length)
    (start : Nat) : (sound ++ later).extract start stop = sound.extract start stop := by
  simp only [List.extract_eq_take_drop, ← List.drop_take, List.take_append_of_le_length h]

/-- What closes with a frame is read off the sound up to it, whatever comes later. -/
theorem Mark.outcome_append {s : Settings} {m : Mark} {sound : List Int16}
    (h : ∀ c, m.closed = some c → c.stop ≤ sound.length) (later : List Int16) :
    m.outcome s (sound ++ later) = m.outcome s sound := by
  obtain ⟨isSpeech, started, frames, closed⟩ := m
  cases closed with
  | none => rfl
  | some c =>
    have hstop : (c.audio s).stop ≤ sound.length := Nat.le_trans (Nat.min_le_right _ _) (h c rfl)
    have hread : (c.audio s).read (sound ++ later) = (c.audio s).read sound :=
      extract_append hstop _
    cases hkept : c.isKept s <;> simp [outcome, phase, Option.filter_some, hkept, hread]

theorem Follows.outcomes {s : Settings} {seg : Segmenter μ η} {t : Tracker μ} {past : List Int16}
    {kept : Nat} (h : Follows s seg t past kept) (signals : List Signal) :
    (seg.outcomes signals).map (Option.map Outcome.unplaced) =
      (t.marks s signals).map (Option.map (Mark.outcome s (past ++ stream signals))) := by
  induction signals generalizing seg t past kept with
  | nil => rfl
  | cons signal rest ih =>
    obtain ⟨kept', hnext, houtcome⟩ := h.take signal
    obtain ⟨-, -, -, closed⟩ := Tracker.take_advances (s := s) h.sound signal
    have hlater : (t.take s signal).1.map (Mark.outcome s (past ++ signal.samples)) =
        (t.take s signal).1.map (Mark.outcome s (past ++ signal.samples ++ stream rest)) := by
      cases hmark : (t.take s signal).1 with
      | none => rfl
      | some m =>
        refine congrArg some (Mark.outcome_append (fun c hc => ?_) _).symm
        have hstop := (closed c (by rw [hmark]; exact hc)).2.2.2.1
        have hpast := h.stop
        rw [List.length_append]
        omega
    have hstream : past ++ stream (signal :: rest) = past ++ signal.samples ++ stream rest := by
      simp [stream]
    rw [hstream, Segmenter.outcomes, Tracker.marks, List.map_cons, List.map_cons, houtcome, hlater,
      ih hnext]

/-- What comes of a stream, cut into frames and reset anywhere, is read off the whole sound by
position: where an utterance opens and closes, whether it is kept, and its audio, which holds all of
its speech. No two of them overlap. -/
theorem outcomes_by_position (s : Settings) (scorer : Scorer μ) (onStart onEnd : Option (Hook η))
    (hooked : η) (seg : Segmenter μ η) (signals : List Signal)
    (created : Segmenter.create s scorer onStart onEnd hooked = .ok seg) :
    let t := Tracker.start scorer
    (seg.outcomes signals).map (Option.map Outcome.unplaced) =
      (t.marks s signals).map (Option.map (Mark.outcome s (stream signals))) ∧
    (∀ c ∈ t.cuts s signals,
      (∀ span ∈ c.speech, (c.audio s).start ≤ span.start ∧ span.stop ≤ (c.audio s).stop) ∧
        (c.audio s).stop ≤ (stream signals).length) ∧
    (t.cuts s signals).Pairwise fun c d => (c.audio s).stop ≤ (d.audio s).start := by
  intro t
  have hsound : t.cut.Sound := .reset ⟨0, [], 0⟩
  have hfollows : Follows s seg t [] 0 := by
    unfold Segmenter.create at created
    split at created
    · cases created
    · cases created
      exact ⟨rfl, rfl, hsound, rfl, rfl, Nat.le_refl _, Nat.le_refl _, .silent rfl rfl (.inl rfl)⟩
  obtain ⟨hcuts, hpairs⟩ := Tracker.cuts_sound (s := s) hsound signals
  have hinside (c : Cut) (hc : c ∈ t.cuts s signals) := (hcuts c hc).1.audio (hcuts c hc).2.1 s
  refine ⟨hfollows.outcomes signals, fun c hc => ?_, ?_⟩
  · obtain ⟨hspeech, -, hstop⟩ := hinside c hc
    have hlength : c.stop ≤ 0 + (stream signals).length := (hcuts c hc).2.2.2
    exact ⟨hspeech, by omega⟩
  · refine hpairs.imp_of_mem fun {c d} hc hd hcd => ?_
    have hstop := (hinside c hc).2.2
    have hstart := (hinside d hd).2.1
    omega

def brief : Settings :=
  { Settings.standard with
    minSpeech := 0, endSilence := 2, padding := 1, sampleRate := 1000, energyFilter := false }

def nonzero : Model Unit where
  score samples _ _ := (.ok (if samples = [0] then ⟨false, 0⟩ else .ofInt .single 1), ())
  reset := id

def hum : List Signal :=
  [.frame [0, 0], .frame [0, 0], .frame [1, 0, 2, 0], .frame [0, 0], .frame [3, 0, 9],
    .frame [0, 0], .frame [0, 0], .frame [4, 0], .reset, .frame [5, 0], .frame [0, 0],
    .frame [0, 0]]

theorem hum_outcomes :
    ∃ seg, Segmenter.create brief (.model nonzero ()) none none () = .ok seg ∧
      (seg.outcomes hum).filterMap (fun o => o.bind fun o => o.utterance.map Utterance.samples) =
        [[0, 1, 2, 0, 3, 0], [5, 0]] := by
  refine ⟨_, rfl, ?_⟩
  let samples (o : Option Outcome) : Option (List Int16) :=
    o.bind fun o => o.utterance.map Utterance.samples
  have hsamples : (samples ∘ Option.map Outcome.unplaced) = samples := by
    funext o
    cases o with
    | none => rfl
    | some o => simp [samples, Outcome.unplaced, Utterance.unplaced, Function.comp_def]
  obtain ⟨houtcomes, -⟩ := outcomes_by_position brief (.model nonzero ()) none none () _ hum rfl
  have hread := congrArg (List.filterMap samples) houtcomes
  rw [List.filterMap_map, hsamples] at hread
  refine hread.trans ?_
  decide +kernel

end Dialogue.Speech
