import Dialogue.Proofs.Alike
import Dialogue.Proofs.Perception
/-!
Services that observers cannot sway: whatever observers do, the other services answer the same. Main
statement: a session with such services takes a frame in the same way whether or not it has
interrupted a playback.
-/
namespace Dialogue

variable {σ μ α : Type}

/-- The services answer by a part of their state that the observers leave as it is. -/
structure Services.Unswayed (mind : σ → α) (s : Services σ) : Prop where
  generate : ∀ prompt context, Agree (fun x y => mind x = mind y)
    (s.generate prompt context) (s.generate prompt context)
  functions : ∀ name f, s.functions.get? name = some f →
    ∀ parameters, Agree (fun x y => mind x = mind y) (f parameters) (f parameters)
  transcriber : ∀ t, s.transcriber = some t → ∀ bytes rate channels language,
    Agree (fun x y => mind x = mind y) (t.hear bytes rate channels language)
      (t.hear bytes rate channels language)
  observers : ∀ o ∈ s.observers, ∀ event x, mind (o event x).2 = mind x

/-- Two sessions in a flow that differ in nothing but their playbacks, what is parked, what is known
about words and the order in which a batch of variables was logged, in worlds of one mind. -/
structure Abreast (f : Flow) (mind : σ → α) (s : Session μ) (w : World σ) (s' : Session μ)
    (w' : World σ) : Prop where
  flow : s.flow = s'.flow
  id : s.id = s'.id
  segmenter : s.segmenter = s'.segmenter
  talk : s.talk.Alike f s'.talk
  mind : mind w.state = mind w'.state

namespace Services.Unswayed
variable {mind : σ → α} {s : Services σ} (unswayed : s.Unswayed mind)
include unswayed

theorem tell (event : Event) (w : World σ) : mind (s.tell event w).state = mind w.state :=
  notify_left (R := fun x y => mind x = mind y)
    (fun o ho event x _ same => (unswayed.observers o ho event x).trans same) event rfl

theorem alike : s.Alike (fun x y => mind x = mind y) s where
  generate := unswayed.generate
  registered _ := rfl
  functions name f f' hf hf' := by
    cases hf.symm.trans hf'
    exact unswayed.functions name f hf
  observers o ho event x _ same := (unswayed.observers o ho event x).trans same
  observers' o ho event _ y same := same.trans (unswayed.observers o ho event y).symm

end Services.Unswayed

namespace Engine
variable {e : Engine σ} {f : Flow} {mind : σ → α} {s s' : Session μ} {w w' : World σ}
  (unswayed : e.services.Unswayed mind)
include unswayed

theorem turn_abreast (h : Abreast f mind s w s' w') (loaded : e.flow? s.flow = some f)
    (live : s.talk.complete = false) (text : String) (facts : Table Json.Value) :
    Abreast f mind (e.turn s w (.words text facts)).2.1 (e.turn s w (.words text facts)).2.2
      (e.turn s' w' (.words text facts)).2.1 (e.turn s' w' (.words text facts)).2.2 := by
  have staged : e.stage f s' = (e.stage f s).servedBy e.services := by
    rw [stage, stage, h.id]
    rfl
  have opened : (e.opening s w (.words text facts)).Alike f (fun x y => mind x = mind y)
      (e.opening s' w' (.words text facts)) := by
    refine ⟨h.talk.add ?_, rfl, h.mind⟩
    rw [h.talk.node]
  have alike : (e.stage f s).services.Alike (fun x y => mind x = mind y) e.services :=
    unswayed.alike
  obtain ⟨r, sc, sc', drive, drive', scenes⟩ :=
    Stage.drive_meet alike opened e.config.continuations (some text)
  rw [e.turn_live s w _ loaded live, e.turn_live s' w' _ (h.flow ▸ loaded) (h.talk.complete ▸ live),
    staged]
  simp only [Cue.input, drive, drive']
  exact ⟨h.flow, h.id, h.segmenter, scenes.talk, scenes.states⟩

theorem respond_abreast (h : Abreast f mind s w s' w') (loaded : e.flow? s.flow = some f)
    (live : s.talk.complete = false) (perception : Perception) :
    Abreast f mind (e.respond f s w perception).2.1 (e.respond f s w perception).2.2
      (e.respond f s' w' perception).2.1 (e.respond f s' w' perception).2.2 := by
  cases perception with
  | deaf | nothing | parked u => exact ⟨h.flow, h.id, h.segmenter, h.talk, h.mind⟩
  | words text u => exact turn_abreast unswayed h loaded live text (facts u)
  | failed message =>
    refine ⟨h.flow, h.id, h.segmenter, h.talk.add ?_, ?_⟩
    · rw [h.talk.node]
    · exact (unswayed.tell _ w).trans (h.mind.trans (unswayed.tell _ w').symm)

/-- Perhaps only one of the two is interrupted. -/
theorem bargeIn_abreast (h : Abreast f mind s w s' w') (started : Bool) :
    Abreast f mind (e.bargeIn f s started w).1 (e.bargeIn f s started w).2
      (e.bargeIn f s' started w').1 (e.bargeIn f s' started w').2 := by
  have left : Abreast f mind (e.bargeIn f s started w).1 (e.bargeIn f s started w).2 s' w' := by
    unfold bargeIn
    split
    · exact ⟨h.flow, h.id, h.segmenter, h.talk, (unswayed.tell _ w).trans h.mind⟩
    · exact h
  generalize e.bargeIn f s started w = x at left
  unfold bargeIn
  split
  · exact ⟨left.flow, left.id, left.segmenter, left.talk, left.mind.trans (unswayed.tell _ w').symm⟩
  · exact left

theorem understand_abreast (same : mind w.state = mind w'.state) (u : Speech.Utterance) :
    (e.understand f w u).1 = (e.understand f w' u).1 ∧
      mind (e.understand f w u).2.state = mind (e.understand f w' u).2.state := by
  unfold understand
  cases ht : e.services.transcriber with
  | none => exact ⟨rfl, same⟩
  | some t =>
    have transcribes (language : String) :
        (t.transcribe u.bytes u.rate e.config.channels language w.state).1 =
            (t.transcribe u.bytes u.rate e.config.channels language w'.state).1 ∧
          mind (t.transcribe u.bytes u.rate e.config.channels language w.state).2 =
            mind (t.transcribe u.bytes u.rate e.config.channels language w'.state).2 := by
      obtain ⟨heard, after⟩ :=
        unswayed.transcriber t ht u.bytes u.rate e.config.channels language _ _ same
      unfold Speech.Transcriber.transcribe
      cases u.bytes.isEmpty with
      | true => exact ⟨rfl, same⟩
      | false =>
        generalize t.hear u.bytes u.rate e.config.channels language w.state = x at heard after
        generalize t.hear u.bytes u.rate e.config.channels language w'.state = y at heard after
        obtain ⟨answer, state⟩ := x
        obtain ⟨answer', state'⟩ := y
        dsimp only at heard after
        subst heard
        cases answer <;> exact ⟨rfl, after⟩
    obtain ⟨heard, after⟩ := transcribes _
    exact ⟨congrArg (Perception.ofTranscript u) heard, after⟩

theorem perceive_abreast (h : Abreast f mind s w s' w') (bytes : List UInt8) :
    (e.perceive f s w bytes).1 = (e.perceive f s' w' bytes).1 ∧
      Abreast f mind (e.perceive f s w bytes).2.1 (e.perceive f s w bytes).2.2
        (e.perceive f s' w' bytes).2.1 (e.perceive f s' w' bytes).2.2 := by
  unfold perceive
  rw [← h.segmenter]
  split
  · next seg _ _ =>
    have next : Abreast f mind { s with segmenter := some (seg.process bytes).2 } w
        { s' with segmenter := some (seg.process bytes).2 } w' :=
      ⟨h.flow, h.id, rfl, h.talk, h.mind⟩
    have barged := bargeIn_abreast unswayed next (seg.process bytes).1.started
    dsimp only
    split
    · exact ⟨rfl, barged⟩
    · next u _ =>
      obtain ⟨heard, after⟩ := understand_abreast (f := f) unswayed barged.mind u
      exact ⟨heard, barged.flow, barged.id, barged.segmenter, barged.talk, after⟩
  · exact ⟨rfl, h⟩

/-- A frame brings the same to both. -/
theorem takeFrame_abreast (h : Abreast f mind s w s' w') (loaded : e.flow? s.flow = some f)
    (bytes : List UInt8) :
    Abreast f mind (e.takeFrame s bytes w).2.1 (e.takeFrame s bytes w).2.2
      (e.takeFrame s' bytes w').2.1 (e.takeFrame s' bytes w').2.2 := by
  cases live : s.talk.complete with
  | true =>
    rw [takeFrame, takeFrame, ← h.talk.complete, live]
    exact h
  | false =>
    obtain ⟨same, perceived⟩ := perceive_abreast unswayed h bytes
    have attends := e.perceive_attends f s w bytes
    have loaded' : e.flow? (e.perceive f s w bytes).2.1.flow = some f := by
      rw [attends.flow, loaded]
    have live' : (e.perceive f s w bytes).2.1.talk.complete = false := by
      rw [attends.talk, live]
    rw [e.takeFrame_eq f s w loaded live,
      e.takeFrame_eq f s' w' (h.flow ▸ loaded) (h.talk.complete ▸ live)]
    dsimp only
    rw [← same]
    exact respond_abreast unswayed perceived loaded' live' _

end Engine
end Dialogue
