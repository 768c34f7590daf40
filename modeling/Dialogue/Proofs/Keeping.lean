import Dialogue.Proofs.Balance
/-!
Which utterances are kept. The least speech is counted in whole frames, rounded down. Main
statement: an utterance is kept exactly if its speech with one frame more is longer than the least
speech; it may fall short of it by less than a frame, where no number of frames is the least speech.
-/
namespace Dialogue.Speech

variable {μ η : Type}

theorem Settings.minFrames_le_iff {s : Settings} (timed : 0 < s.frameDuration) (n : Nat) :
    s.minFrames ≤ n ↔ s.minSpeech < n * s.frameDuration + s.frameDuration := by
  have frame : max s.frameDuration 1 = s.frameDuration := Nat.max_eq_left timed
  rw [minFrames, frame, ← Nat.lt_succ_iff, Nat.div_lt_iff_lt_mul timed, Nat.succ_mul]

/-- Where a number of frames is the least speech, or one frame is more, nothing is lost by
counting frames. -/
theorem Settings.minFrames_exact {s : Settings} (timed : 0 < s.frameDuration)
    (whole : s.frameDuration ∣ s.minSpeech ∨ s.minSpeech < s.frameDuration) {n : Nat}
    (begun : 1 ≤ n) : s.minFrames ≤ n ↔ s.minSpeech ≤ n * s.frameDuration := by
  rw [minFrames_le_iff timed]
  rcases whole with ⟨count, multiple⟩ | short
  · rw [multiple, Nat.mul_comm s.frameDuration count, ← Nat.succ_mul, Nat.mul_lt_mul_right timed,
      Nat.mul_le_mul_right_iff timed, Nat.lt_succ_iff]
  · have first := Nat.mul_le_mul_right s.frameDuration begun
    omega

theorem Settings.timed {s : Settings} (fine : s.problem? = none) : 0 < s.frameDuration := by
  refine Nat.pos_of_ne_zero fun untimed => ?_
  simp only [problem?, if_pos untimed] at fine
  split at fine <;> cases fine

theorem History.Open.begun {h : History} {k n : Nat} (standing : h.Open k n) : 1 ≤ n := by
  induction standing with
  | opens => exact Nat.le_refl 1
  | goesOn before o unfinished ih =>
    split
    · exact Nat.le_succ_of_le ih
    · exact ih

/-- A closing frame compares the speech frames of the utterance with their least number. -/
theorem Brings.closes {s : Settings} {onStart onEnd : Option (Hook η)} {activity next : Activity}
    {hooked hooked' : η} {o : Outcome} (h : Brings s onStart onEnd activity hooked o next hooked')
    (complete : o.phase = .complete) :
    ∃ first frames quiet, activity.Opens first frames quiet ∧ o.speech = frames * s.frameDuration ∧
      (o.utterance.isSome = true ↔ s.minFrames ≤ frames) ∧
      ∀ u, o.utterance = some u → u.speech = o.speech := by
  cases h with
  | @discards first frames quiet opens few =>
    exact ⟨first, frames, quiet, opens, rfl, by simp [few], by simp⟩
  | @keeps first frames quiet opens enough u speech =>
    refine ⟨first, frames, quiet, opens, rfl, by simp [enough], ?_⟩
    rintro _ ⟨⟩
    exact speech
  | onset | silence | speech | pause => cases complete

theorem Brings.complete_of_kept {s : Settings} {onStart onEnd : Option (Hook η)}
    {activity next : Activity} {hooked hooked' : η} {o : Outcome}
    (h : Brings s onStart onEnd activity hooked o next hooked') (kept : o.utterance.isSome = true) :
    o.phase = .complete := by
  cases h with
  | keeps => rfl
  | onset | silence | speech | pause | discards => cases kept

/-- The utterance that closes with a frame is the one that was open. It is kept exactly if less than
a frame is missing to the least speech; with as much as that it is always kept, and only with as
much if a number of frames is the least speech or one frame is more. -/
theorem kept_within_frame (s : Settings) (scorer : Scorer μ) (onStart onEnd : Option (Hook η))
    (hooked : η) (seg : Segmenter μ η) (signals : List Signal) (bytes : List UInt8)
    (created : Segmenter.create s scorer onStart onEnd hooked = .ok seg) :
    let o := ((seg.after signals).process bytes).1
    (o.utterance.isSome = true → o.phase = .complete) ∧
    (o.phase = .complete →
      ∃ k n, History.Open (seg.outcomes signals) k n ∧ o.speech = n * s.frameDuration ∧
        (∀ u, o.utterance = some u → u.speech = o.speech) ∧
        (o.utterance.isSome = true ↔ s.minSpeech < o.speech + s.frameDuration) ∧
        (s.minSpeech ≤ o.speech → o.utterance.isSome = true) ∧
        (s.frameDuration ∣ s.minSpeech ∨ s.minSpeech < s.frameDuration →
          (o.utterance.isSome = true ↔ s.minSpeech ≤ o.speech))) := by
  intro o
  have timed := Settings.timed (Segmenter.create_eq_ok.mp created).1
  have books := (create_books created).run signals
  obtain ⟨brings, -⟩ := (seg.after signals).process_brings bytes
  rw [books.settings] at brings
  refine ⟨brings.complete_of_kept, fun complete => ?_⟩
  obtain ⟨first, n, quiet, opens, speech, kept, same⟩ := brings.closes complete
  obtain ⟨k, standing, -⟩ := books.knows.frames_eq opens
  have within : o.utterance.isSome = true ↔ s.minSpeech < o.speech + s.frameDuration := by
    rw [kept, speech, Settings.minFrames_le_iff timed]
  refine ⟨k, n, standing, speech, same, within, fun enough => ?_, fun whole => ?_⟩
  · rw [within]
    omega
  · rw [kept, speech]
    exact Settings.minFrames_exact timed whole standing.begun

def Signal.Nominal (s : Settings) (signal : Signal) : Prop :=
  signal.samples.length * 1000 = s.frameDuration * s.sampleRate

instance (s : Settings) (signal : Signal) : Decidable (signal.Nominal s) :=
  inferInstanceAs (Decidable (_ = _))

def clipped (minSpeech : Nat) : Settings :=
  { Settings.standard with minSpeech, endSilence := 30, sampleRate := 1000, energyFilter := false }

def sounding : Model Unit where
  score samples _ _ := (.ok (if samples.all (· == 0) then ⟨false, 0⟩ else .ofInt .single 1), ())
  reset := id

def tone : List Signal := List.replicate 8 (.frame (List.replicate 60 1))

def hush : List UInt8 := List.replicate 60 0

theorem tone_kept :
    ∃ seg, Segmenter.create (clipped 240) (.model sounding ()) none none () = .ok seg ∧
      ((seg.after tone).process hush).1.phase = .complete ∧
      (((seg.after tone).process hush).1.utterance.isSome = true ↔
        240 ≤ ((seg.after tone).process hush).1.speech) := by
  obtain ⟨-, closes⟩ := kept_within_frame (clipped 240) (.model sounding ()) none none () _ tone
    hush rfl
  obtain ⟨k, n, -, -, -, -, -, exactly⟩ := closes (by decide +kernel)
  exact ⟨_, rfl, by decide +kernel, exactly (.inl (by decide))⟩

/-- Eight frames of thirty milliseconds are kept where the least speech is a quarter of a second. -/
theorem tone_undershoots :
    ∃ seg, Segmenter.create (clipped 250) (.model sounding ()) none none () = .ok seg ∧
      (∀ signal ∈ tone ++ [.frame hush], signal.Nominal (clipped 250)) ∧
      ∃ u, ((seg.after tone).process hush).1.utterance = some u ∧
        u.speech = 240 ∧ u.speech < (clipped 250).minSpeech := by
  let seg : Segmenter Unit Unit :=
    ⟨clipped 250, .model sounding (), .silent, #[], none, none, ()⟩
  have heard : ((seg.after tone).process hush).1.utterance.map Utterance.speech = some 240 := by
    decide +kernel
  obtain ⟨u, hu, speech⟩ := Option.map_eq_some_iff.mp heard
  exact ⟨seg, rfl, by decide, u, hu, speech, by rw [speech]; decide⟩

end Dialogue.Speech
