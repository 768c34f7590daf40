import Dialogue.Proofs.Counters
import Mathlib.Logic.ExistsUnique
/-!
The books of a stream. An utterance that opens is kept, discarded or lost in a reset, or it is open
still. Main statement: the books balance at every point of a stream, every frame of speech goes to
one utterance, and the hooks hear of what opens and what is kept, and nobody minds their failures.
-/
namespace Dialogue.Speech

open Segmenter (fire)

variable {μ η ν : Type}

/-- What a run has brought so far: an outcome for each frame, nothing for a reset. -/
abbrev History := List (Option Outcome)

namespace History

def onsets (h : History) : Nat := h.countP fun x => x.any Outcome.started

def kept (h : History) : Nat := h.countP fun x => x.any fun o => o.utterance.isSome

def discarded (h : History) : Nat := h.countP fun x => x.any Outcome.discarded

/-- An utterance has opened with the frame of this number and has neither closed since nor been lost
in a reset; so many frames of it are speech. -/
inductive Open : History → Nat → Nat → Prop where
  | opens (h : History) (o : Outcome) (started : o.started = true) :
      Open (h ++ [some o]) h.length 1
  | goesOn {h : History} {k n : Nat} (before : Open h k n) (o : Outcome)
      (unfinished : o.phase ≠ .complete) :
      Open (h ++ [some o]) k (if o.isSpeech then n + 1 else n)

end History

def Outcome.reaction (onStart onEnd : Option (Hook η)) (o : Outcome) (hooked : η) : η :=
  let hooked := if o.started then fire onStart hooked else hooked
  if o.utterance.isSome then fire onEnd hooked else hooked

def History.reactions (onStart onEnd : Option (Hook η)) (h : History) (hooked : η) : η :=
  h.foldl (fun hooked x => x.elim hooked fun o => o.reaction onStart onEnd hooked) hooked

def Activity.count (activity : Activity) : Nat := if activity.phase = .silence then 0 else 1

namespace Segmenter

def lost (seg : Segmenter μ η) : List Signal → Nat
  | [] => 0
  | .frame bytes :: rest => lost (seg.process bytes).2 rest
  | .reset :: rest => seg.activity.count + lost seg.reset rest

def rehook (seg : Segmenter μ η) (onStart onEnd : Option (Hook ν)) (hooked : ν) : Segmenter μ ν :=
  ⟨seg.settings, seg.scorer, seg.activity, seg.buffer, onStart, onEnd, hooked⟩

end Segmenter

inductive Brings (s : Settings) (onStart onEnd : Option (Hook η)) (activity : Activity)
    (hooked : η) : Outcome → Activity → η → Prop where
  | onset (silent : activity = .silent) (first : Nat) :
      Brings s onStart onEnd activity hooked
        ⟨.speaking, true, true, none, false, 1 * s.frameDuration⟩ (.speaking first 1)
        (fire onStart hooked)
  | silence (silent : activity = .silent) :
      Brings s onStart onEnd activity hooked ⟨.silence, false, false, none, false, 0⟩ .silent hooked
  | speech {first frames quiet : Nat} (opens : activity.Opens first frames quiet) :
      Brings s onStart onEnd activity hooked
        ⟨.speaking, true, false, none, false, (frames + 1) * s.frameDuration⟩
        (.speaking first (frames + 1)) hooked
  | pause {first frames quiet : Nat} (opens : activity.Opens first frames quiet) (more : Nat) :
      Brings s onStart onEnd activity hooked
        ⟨.pause, false, false, none, false, frames * s.frameDuration⟩ (.pausing first frames more)
        hooked
  | discards {first frames quiet : Nat} (opens : activity.Opens first frames quiet)
      (few : frames < s.minFrames) :
      Brings s onStart onEnd activity hooked
        ⟨.complete, false, false, none, true, frames * s.frameDuration⟩ .silent hooked
  | keeps {first frames quiet : Nat} (opens : activity.Opens first frames quiet)
      (enough : s.minFrames ≤ frames) (u : Utterance)
      (speech : u.speech = frames * s.frameDuration) :
      Brings s onStart onEnd activity hooked
        ⟨.complete, false, false, some u, false, frames * s.frameDuration⟩ .silent
        (fire onEnd hooked)

theorem Activity.Opens.frames_eq {activity : Activity}
    {first frames quiet first' frames' quiet' : Nat} (h : activity.Opens first frames quiet)
    (h' : activity.Opens first' frames' quiet') : frames = frames' := by
  cases h <;> cases h' <;> rfl

namespace Segmenter

theorem close_of_few {s : Settings} {frames : Nat} (few : frames < s.minFrames)
    (buffer : Array Int16) (onset quiet : Nat) : close s buffer onset frames quiet = none :=
  if_pos few

theorem close_of_enough {s : Settings} {frames : Nat} (enough : s.minFrames ≤ frames)
    (buffer : Array Int16) (onset quiet : Nat) :
    ∃ u, close s buffer onset frames quiet = some u ∧ u.speech = frames * s.frameDuration :=
  ⟨_, if_neg (Nat.not_lt.mpr enough), rfl⟩

theorem advance_brings (seg : Segmenter μ η) (isSpeech : Bool) (samples : List Int16) :
    let next := (seg.advance isSpeech samples).2
    Brings seg.settings seg.onStart seg.onEnd seg.activity seg.hooked
        (seg.advance isSpeech samples).1 next.activity next.hooked ∧
      next.settings = seg.settings ∧ next.onStart = seg.onStart ∧ next.onEnd = seg.onEnd := by
  rcases seg.activity.silent_or_opens with silent | ⟨first, frames, quiet, opens⟩
  · cases isSpeech with
    | true =>
      rw [advance_onset rfl silent]
      exact ⟨.onset silent _, rfl, rfl, rfl⟩
    | false =>
      rw [advance_silence rfl silent]
      refine ⟨?_, rfl, rfl, rfl⟩
      dsimp only
      rw [silent]
      exact .silence rfl
  · cases isSpeech with
    | true =>
      rw [advance_speech rfl opens]
      exact ⟨.speech opens, rfl, rfl, rfl⟩
    | false =>
      by_cases short : quiet + samples.length <
          Audio.samplesOf seg.settings.endSilence seg.settings.sampleRate
      · rw [advance_pause rfl opens samples short]
        exact ⟨.pause opens _, rfl, rfl, rfl⟩
      · rw [advance_complete rfl opens samples (Nat.not_lt.mp short)]
        by_cases few : frames < seg.settings.minFrames
        · rw [close_of_few few]
          exact ⟨.discards opens few, rfl, rfl, rfl⟩
        · obtain ⟨u, hu, speech⟩ := close_of_enough (Nat.not_lt.mp few) (seg.buffer ++ samples)
            first (quiet + samples.length)
          rw [hu]
          exact ⟨.keeps opens (Nat.not_lt.mp few) u speech, rfl, rfl, rfl⟩

theorem process_brings (seg : Segmenter μ η) (bytes : List UInt8) :
    let next := (seg.process bytes).2
    Brings seg.settings seg.onStart seg.onEnd seg.activity seg.hooked (seg.process bytes).1
        next.activity next.hooked ∧
      next.settings = seg.settings ∧ next.onStart = seg.onStart ∧ next.onEnd = seg.onEnd :=
  advance_brings { seg with scorer := (seg.scorer.judge seg.settings (Audio.decode bytes)).2 } _ _

end Segmenter

namespace History

theorem not_open_nil {k n : Nat} : ¬ Open [] k n := by
  intro now
  generalize e : ([] : History) = all at now
  cases now with
  | opens | goesOn => simp at e

/-- What is open after one more frame. -/
theorem open_concat {h : History} {o : Outcome} {k n : Nat} (now : Open (h ++ [some o]) k n) :
    (o.started = true ∧ k = h.length ∧ n = 1) ∨
      o.phase ≠ .complete ∧ ∃ m, Open h k m ∧ n = if o.isSpeech then m + 1 else m := by
  generalize e : h ++ [some o] = all at now
  cases now with
  | opens h' o' started =>
    obtain ⟨rfl, he⟩ := List.append_inj' e rfl
    cases he
    exact .inl ⟨started, rfl, rfl⟩
  | goesOn before o' unfinished =>
    obtain ⟨rfl, he⟩ := List.append_inj' e rfl
    cases he
    exact .inr ⟨unfinished, _, before, rfl⟩

/-- Where no utterance opens, what is open has been so before. -/
theorem open_later {h : History} {o : Outcome} {k n : Nat} (later : o.started = false)
    (now : Open (h ++ [some o]) k n) :
    o.phase ≠ .complete ∧ ∃ m, Open h k m ∧ n = if o.isSpeech then m + 1 else m := by
  rcases open_concat now with ⟨started, -⟩ | before
  · rw [later] at started
    cases started
  · exact before

/-- A reset leaves nothing open. -/
theorem not_open_reset {h : History} {k n : Nat} : ¬ Open (h ++ [none]) k n := by
  intro now
  generalize e : h ++ [none] = all at now
  cases now with
  | opens | goesOn =>
    obtain ⟨-, he⟩ := List.append_inj' e rfl
    cases he

end History

/-- What a segmenter knows of the utterance that is open, if there is one. -/
inductive Knows (h : History) (activity : Activity) : Prop where
  | silent (silent : activity = .silent) (none : ∀ k n, ¬ h.Open k n)
  | opens {first frames quiet : Nat} (opens : activity.Opens first frames quiet) (k : Nat)
      (here : h.Open k frames) (only : ∀ k' n, h.Open k' n → k' = k ∧ n = frames)

namespace Knows
variable {h : History} {activity next : Activity} {o : Outcome} {first frames quiet : Nat}

theorem frames_eq (knows : Knows h activity) (opens : activity.Opens first frames quiet) :
    ∃ k, h.Open k frames ∧ ∀ k' n, h.Open k' n → k' = k ∧ n = frames := by
  cases knows with
  | silent silent =>
    rw [silent] at opens
    cases opens
  | opens opens' k here only =>
    rw [opens.frames_eq opens']
    exact ⟨k, here, only⟩

theorem not_open (knows : Knows h activity) (silent : activity = .silent) (k n : Nat) :
    ¬ h.Open k n := by
  cases knows with
  | silent _ none => exact none k n
  | opens opens =>
    rw [silent] at opens
    cases opens

/-- An utterance that goes on with a frame. -/
theorem goesOn (knows : Knows h activity) (before : activity.Opens first frames quiet)
    (unfinished : o.phase ≠ .complete) (later : o.started = false) {quiet' : Nat}
    (opens : next.Opens first (if o.isSpeech then frames + 1 else frames) quiet') :
    Knows (h ++ [some o]) next := by
  obtain ⟨k, here, only⟩ := knows.frames_eq before
  refine .opens opens k (here.goesOn o unfinished) fun k' n now => ?_
  obtain ⟨-, m, standing, rfl⟩ := History.open_later later now
  obtain ⟨rfl, rfl⟩ := only k' m standing
  exact ⟨rfl, rfl⟩

theorem closed (complete : o.phase = .complete) (later : o.started = false) :
    Knows (h ++ [some o]) .silent :=
  .silent rfl fun _ _ now => (History.open_later later now).1 complete

theorem brings {s : Settings} {onStart onEnd : Option (Hook η)} {hooked hooked' : η}
    (knows : Knows h activity) (brings : Brings s onStart onEnd activity hooked o next hooked') :
    Knows (h ++ [some o]) next := by
  cases brings with
  | onset silent first =>
    -- nothing else can be open: it would have been so in silence
    refine .opens .speaking h.length (.opens h _ rfl) fun k n now => ?_
    rcases History.open_concat now with ⟨-, rfl, rfl⟩ | ⟨-, m, standing, -⟩
    · exact ⟨rfl, rfl⟩
    · exact absurd standing (knows.not_open silent k m)
  | silence silent =>
    refine .silent rfl fun k n now => ?_
    obtain ⟨-, m, standing, -⟩ := History.open_later rfl now
    exact knows.not_open silent k m standing
  | speech opens => exact knows.goesOn opens (by simp) rfl .speaking
  | pause opens more => exact knows.goesOn opens (by simp) rfl (.pausing more)
  | discards | keeps => exact closed rfl rfl

end Knows

namespace History
variable {h : History}

theorem onsets_concat (o : Outcome) :
    onsets (h ++ [some o]) = h.onsets + if o.started then 1 else 0 := by
  simp [onsets, List.countP_append, List.countP_cons]

theorem kept_concat (o : Outcome) :
    kept (h ++ [some o]) = h.kept + if o.utterance.isSome then 1 else 0 := by
  simp [kept, List.countP_append, List.countP_cons]

theorem discarded_concat (o : Outcome) :
    discarded (h ++ [some o]) = h.discarded + if o.discarded then 1 else 0 := by
  simp [discarded, List.countP_append, List.countP_cons]

theorem counts_reset : onsets (h ++ [none]) = h.onsets ∧ kept (h ++ [none]) = h.kept ∧
    discarded (h ++ [none]) = h.discarded := by
  simp [onsets, kept, discarded, List.countP_append]

theorem reactions_concat (onStart onEnd : Option (Hook η)) (o : Outcome) (hooked : η) :
    reactions onStart onEnd (h ++ [some o]) hooked =
      o.reaction onStart onEnd (h.reactions onStart onEnd hooked) := by
  simp [reactions, List.foldl_append]

end History

theorem Activity.Opens.count_eq {activity : Activity} {first frames quiet : Nat}
    (h : activity.Opens first frames quiet) : activity.count = 1 := by
  cases h <;> rfl

namespace Brings
variable {s : Settings} {onStart onEnd : Option (Hook η)} {activity next : Activity}
  {hooked hooked' : η} {o : Outcome} (h : Brings s onStart onEnd activity hooked o next hooked')
include h

/-- One frame moves what it opens, closes and leaves open by the same amounts. -/
theorem balance :
    activity.count + (if o.started then 1 else 0) =
      (if o.utterance.isSome then 1 else 0) + (if o.discarded then 1 else 0) + next.count := by
  cases h with
  | onset silent | silence silent =>
    rw [silent]
    rfl
  | speech opens | pause opens | discards opens | keeps opens =>
    -- one was open before; it is open still, or it is kept or discarded now
    rw [opens.count_eq]
    rfl

theorem reacts : hooked' = o.reaction onStart onEnd hooked := by
  cases h <;> rfl

theorem complete_iff : o.phase = .complete ↔ o.utterance.isSome ≠ o.discarded := by
  cases h <;> simp

/-- A frame of speech goes to the utterance that is open after it. -/
theorem opens_of_speech (isSpeech : o.isSpeech = true) :
    ∃ first frames quiet, next.Opens first frames quiet ∧ o.speech = frames * s.frameDuration := by
  cases h with
  | onset _ first => exact ⟨first, 1, 0, .speaking, rfl⟩
  | @speech first frames => exact ⟨first, frames + 1, 0, .speaking, rfl⟩
  | silence | pause | discards | keeps => cases isSpeech

theorem silent_of_complete (complete : o.phase = .complete) : next = .silent := by
  cases h with
  | discards | keeps => rfl
  | onset | silence | speech | pause => cases complete

end Brings

namespace Segmenter
variable (seg : Segmenter μ η) (onStart onEnd : Option (Hook ν)) (hooked : ν)

theorem advance_rehook (isSpeech : Bool) (samples : List Int16) :
    ∃ hooked', (seg.rehook onStart onEnd hooked).advance isSpeech samples =
      ((seg.advance isSpeech samples).1,
        (seg.advance isSpeech samples).2.rehook onStart onEnd hooked') := by
  let other := seg.rehook onStart onEnd hooked
  rcases seg.activity.silent_or_opens with silent | ⟨first, frames, quiet, opens⟩
  · have silent' : other.activity = .silent := silent
    cases isSpeech with
    | true =>
      rw [advance_onset rfl silent', advance_onset rfl silent]
      exact ⟨_, rfl⟩
    | false =>
      rw [advance_silence rfl silent', advance_silence rfl silent]
      exact ⟨_, rfl⟩
  · have opens' : other.activity.Opens first frames quiet := opens
    cases isSpeech with
    | true =>
      rw [advance_speech rfl opens', advance_speech rfl opens]
      exact ⟨_, rfl⟩
    | false =>
      by_cases short : quiet + samples.length <
          Audio.samplesOf seg.settings.endSilence seg.settings.sampleRate
      · rw [advance_pause rfl opens' samples short, advance_pause rfl opens samples short]
        exact ⟨_, rfl⟩
      · have long := Nat.not_lt.mp short
        rw [advance_complete rfl opens' samples long, advance_complete rfl opens samples long]
        exact ⟨_, rfl⟩

theorem take_rehook (signal : Signal) :
    ∃ hooked', (seg.rehook onStart onEnd hooked).take signal =
      ((seg.take signal).1, (seg.take signal).2.rehook onStart onEnd hooked') := by
  cases signal with
  | frame bytes =>
    let scored := { seg with scorer := (seg.scorer.judge seg.settings (Audio.decode bytes)).2 }
    obtain ⟨hooked', e⟩ := scored.advance_rehook onStart onEnd hooked
      (seg.scorer.judge seg.settings (Audio.decode bytes)).1 (Audio.decode bytes)
    exact ⟨hooked', congrArg (fun x => (some x.1, x.2)) e⟩
  | reset => exact ⟨hooked, rfl⟩

/-- The hooks make no difference to a run. -/
theorem run_rehook (signals : List Signal) :
    (seg.rehook onStart onEnd hooked).outcomes signals = seg.outcomes signals ∧
      ∃ hooked', (seg.rehook onStart onEnd hooked).after signals =
        (seg.after signals).rehook onStart onEnd hooked' := by
  induction signals generalizing seg hooked with
  | nil => exact ⟨rfl, hooked, rfl⟩
  | cons signal rest ih =>
    obtain ⟨hooked', e⟩ := seg.take_rehook onStart onEnd hooked signal
    obtain ⟨outcomes, after⟩ := ih (seg.take signal).2 hooked'
    rw [Segmenter.outcomes, Segmenter.after, e]
    exact ⟨congrArg _ outcomes, after⟩

end Segmenter

structure Books (s : Settings) (onStart onEnd : Option (Hook η)) (hooked : η) (h : History)
    (lost : Nat) (seg : Segmenter μ η) : Prop where
  settings : seg.settings = s
  begins : seg.onStart = onStart
  ends : seg.onEnd = onEnd
  hooks : seg.hooked = h.reactions onStart onEnd hooked
  balance : h.onsets = h.kept + h.discarded + lost + seg.activity.count
  knows : Knows h seg.activity

namespace Books
variable {s : Settings} {onStart onEnd : Option (Hook η)} {hooked : η} {h : History} {lost : Nat}
  {seg : Segmenter μ η}

theorem frame (books : Books s onStart onEnd hooked h lost seg) (bytes : List UInt8) :
    Books s onStart onEnd hooked (h ++ [some (seg.process bytes).1]) lost
      (seg.process bytes).2 := by
  obtain ⟨brings, settings, begins, ends⟩ := seg.process_brings bytes
  have moved := brings.balance
  refine ⟨settings.trans books.settings, begins.trans books.begins, ends.trans books.ends, ?_, ?_,
    books.knows.brings brings⟩
  · rw [brings.reacts, History.reactions_concat, books.begins, books.ends, books.hooks]
  · rw [History.onsets_concat, History.kept_concat, History.discarded_concat, books.balance]
    omega

theorem reset (books : Books s onStart onEnd hooked h lost seg) :
    Books s onStart onEnd hooked (h ++ [none]) (lost + seg.activity.count) seg.reset := by
  obtain ⟨onsets, kept, discarded⟩ := History.counts_reset (h := h)
  refine ⟨books.settings, books.begins, books.ends, ?_, ?_,
    .silent rfl fun _ _ => History.not_open_reset⟩
  · rw [History.reactions, List.foldl_append]
    exact books.hooks
  · rw [onsets, kept, discarded, books.balance]
    simp [Segmenter.reset, Activity.count, Activity.phase]
    omega

theorem run (books : Books s onStart onEnd hooked h lost seg) (signals : List Signal) :
    Books s onStart onEnd hooked (h ++ seg.outcomes signals) (lost + seg.lost signals)
      (seg.after signals) := by
  induction signals generalizing seg h lost with
  | nil =>
    rw [Segmenter.outcomes, List.append_nil]
    exact books
  | cons signal rest ih =>
    rw [Segmenter.outcomes, List.append_cons, Segmenter.after]
    cases signal with
    | frame bytes => exact ih (books.frame bytes)
    | reset =>
      have later := ih books.reset
      rw [Nat.add_assoc] at later
      exact later

end Books

theorem Segmenter.create_eq_ok {s : Settings} {scorer : Scorer μ} {onStart onEnd : Option (Hook η)}
    {hooked : η} {seg : Segmenter μ η} :
    Segmenter.create s scorer onStart onEnd hooked = .ok seg ↔
      s.problem? = none ∧ ⟨s, scorer, .silent, #[], onStart, onEnd, hooked⟩ = seg := by
  unfold Segmenter.create
  cases s.problem? <;> simp

theorem create_books {s : Settings} {scorer : Scorer μ} {onStart onEnd : Option (Hook η)}
    {hooked : η} {seg : Segmenter μ η}
    (created : Segmenter.create s scorer onStart onEnd hooked = .ok seg) :
    Books s onStart onEnd hooked [] 0 seg := by
  obtain ⟨-, rfl⟩ := Segmenter.create_eq_ok.mp created
  exact ⟨rfl, rfl, rfl, rfl, rfl, .silent rfl fun _ _ => History.not_open_nil⟩

/-- At every point of a stream, each utterance that has opened is kept, discarded, lost in a reset
or open. A frame closes one exactly if it is kept or discarded with it, a frame of speech goes to
exactly one, and the hooks have reacted to what opened and to what was kept. Whatever the hooks do,
the stream is cut in the same way. -/
theorem books_balance (s : Settings) (scorer : Scorer μ) (onStart onEnd : Option (Hook η))
    (hooked : η) (seg : Segmenter μ η) (signals : List Signal)
    (created : Segmenter.create s scorer onStart onEnd hooked = .ok seg) :
    let h : History := seg.outcomes signals
    let now := seg.after signals
    h.onsets = h.kept + h.discarded + seg.lost signals + (if now.phase = .silence then 0 else 1) ∧
    now.hooked = h.reactions onStart onEnd hooked ∧
    (∀ bytes,
      let o := (now.process bytes).1
      (o.phase = .complete ↔ o.utterance.isSome ≠ o.discarded) ∧
      (o.phase = .complete → (now.process bytes).2.phase = .silence) ∧
      (o.isSpeech = true →
        ∃! k, ∃ n, History.Open (h ++ [some o]) k n ∧ o.speech = n * s.frameDuration)) ∧
    ∀ (ν : Type) (onStart' onEnd' : Option (Hook ν)) (hooked' : ν), ∃ seg' hooked'',
      Segmenter.create s scorer onStart' onEnd' hooked' = .ok seg' ∧
        seg'.outcomes signals = h ∧
        seg'.after signals = now.rehook onStart' onEnd' hooked'' := by
  intro h now
  have books : Books s onStart onEnd hooked h (seg.lost signals) now := by
    have run := (create_books created).run signals
    rwa [List.nil_append, Nat.zero_add] at run
  refine ⟨books.balance, books.hooks, fun bytes => ?_, fun ν onStart' onEnd' hooked' => ?_⟩
  · obtain ⟨brings, -⟩ := now.process_brings bytes
    refine ⟨brings.complete_iff, fun complete => ?_, fun isSpeech => ?_⟩
    · rw [Segmenter.phase, brings.silent_of_complete complete]
      rfl
    · obtain ⟨first, frames, quiet, opens, speech⟩ := brings.opens_of_speech isSpeech
      obtain ⟨k, here, only⟩ := (books.knows.brings brings).frames_eq opens
      rw [books.settings] at speech
      refine ⟨k, ⟨frames, here, speech⟩, fun k' other => ?_⟩
      obtain ⟨n, standing, -⟩ := other
      exact (only k' n standing).1
  · obtain ⟨outcomes, hooked'', after⟩ := seg.run_rehook onStart' onEnd' hooked' signals
    obtain ⟨fine, rfl⟩ := Segmenter.create_eq_ok.mp created
    exact ⟨_, hooked'', Segmenter.create_eq_ok.mpr ⟨fine, rfl⟩, outcomes, after⟩

def complaint (word : String) : Hook (List String) := fun words => (.error "deaf", words ++ [word])

theorem hum_balances :
    ∃ seg, Segmenter.create brief (.model nonzero ()) (some (complaint "on"))
        (some (complaint "off")) [] = .ok seg ∧
      History.onsets (seg.outcomes hum) = 3 ∧ History.kept (seg.outcomes hum) = 2 ∧
      seg.lost hum = 1 ∧ (seg.after hum).hooked = ["on", "off", "on", "on", "off"] := by
  obtain ⟨balance, hooks, -⟩ := books_balance brief (.model nonzero ()) (some (complaint "on"))
    (some (complaint "off")) [] _ hum rfl
  refine ⟨_, rfl, ?_, ?_, ?_, ?_⟩
  · rw [balance]
    decide +kernel
  · decide +kernel
  · decide +kernel
  · rw [hooks]
    decide +kernel

end Dialogue.Speech
