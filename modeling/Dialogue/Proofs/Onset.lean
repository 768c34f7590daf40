import Dialogue.Proofs.Acts
import Dialogue.Proofs.Perception
/-!
Speech that sets in while the agent is speaking. Main statement: the observers are told of an
interruption, and the playback is asked to stop, with exactly the frames by which speech sets in while
something is played that may be interrupted; no other part of a turn does either.
-/
namespace Dialogue

variable {σ μ : Type}

def Event.isInterruption : Event → Bool
  | interrupted _ => true
  | _ => false

/-- What a session that listens makes of a frame; once the conversation is over it makes nothing. -/
def Session.outcome? (s : Session μ) (bytes : List UInt8) : Option Speech.Outcome :=
  if s.talk.complete then none else s.segmenter.map fun seg => (seg.process bytes).1

namespace Services
variable {s : Services σ} {w w' w'' : World σ} {events more : List Event}

def Calm (s : Services σ) (w w' : World σ) : Prop :=
  ∃ events, s.Tells events w w' ∧ ∀ event ∈ events, event.isInterruption = false

theorem Calm.refl (s : Services σ) (w : World σ) : s.Calm w w :=
  ⟨[], .refl s w, nofun⟩

theorem Calm.trans (h : s.Calm w w') (h' : s.Calm w' w'') : s.Calm w w'' := by
  obtain ⟨events, told, calm⟩ := h
  obtain ⟨more, told', calm'⟩ := h'
  exact ⟨events ++ more, told.trans told',
    fun event he => (List.mem_append.mp he).elim (calm event) (calm' event)⟩

theorem Calm.tell (s : Services σ) (w : World σ) {event : Event}
    (calm : event.isInterruption = false) : s.Calm w (s.tell event w) :=
  ⟨[event], .tell s event w, fun _ he => List.mem_singleton.mp he ▸ calm⟩

end Services

namespace Stage

theorem executed_calm (st : Stage σ) (n : Flow.Node) (input : Option String) (sc : Scene σ) :
    st.services.Calm sc.world (st.executed n input sc).2.world := by
  obtain ⟨-, uses⟩ := Run.execute_spec st.services
    ⟨st.session, st.flow.settings, sc.talk.recent st.config.window⟩ n input sc.talk.vars sc.world
  unfold executed
  dsimp only
  generalize execute st.services _ n input sc.talk.vars sc.world = run at uses ⊢
  obtain ⟨r, vars, world⟩ := run
  have told := uses.tells.trans_silent (.ran st.services world n.id input r)
  have calm : ∀ event ∈ r.announced st.session n.id, event.isInterruption = false := by
    intro event he
    obtain ⟨text, -, rfl⟩ := List.mem_map.mp he
    rfl
  dsimp only
  split <;> exact ⟨_, told, calm⟩

theorem Acts.calm {st : Stage σ} {sc sc' : Scene σ} (acts : st.Acts sc sc') :
    st.services.Calm sc.world sc'.world := by
  induction acts with
  | none => exact .refl _ _
  | @execute sc' before n input here ih => exact ih.trans (st.executed_calm n input sc')
  | @say sc' before node text ih =>
    refine ih.trans ?_
    unfold Stage.say
    split
    · exact .refl _ _
    · exact .tell _ _ rfl
  | move before target ih => exact ih.trans (.tell _ _ rfl)
  | counted before ih | closed before reason ih => exact ih

end Stage

structure Session.Undisturbed (s s' : Session μ) : Prop where
  flow : s'.flow = s.flow
  id : s'.id = s.id
  segmenter : s'.segmenter = s.segmenter
  playback : s'.playback = s.playback

namespace Engine
variable (e : Engine σ) (f : Flow) (s : Session μ) (w : World σ)

theorem turn_calm (cue : Cue) : e.services.Calm w (e.turn s w cue).2.2 ∧
    s.Undisturbed (e.turn s w cue).2.1 := by
  obtain same | ⟨f, sc, -, acts, same⟩ := e.turn_acts s w cue
  · rw [same]
    exact ⟨.refl _ _, rfl, rfl, rfl, rfl⟩
  · have opened : e.services.Calm w (e.opening s w cue).world := by
      cases cue with
      | start => exact .tell _ _ rfl
      | words text facts => exact .refl _ _
    rw [same]
    exact ⟨opened.trans acts.calm, rfl, rfl, rfl, rfl⟩

theorem respond_calm (perception : Perception) :
    e.services.Calm w (e.respond f s w perception).2.2 ∧
      s.Undisturbed (e.respond f s w perception).2.1 := by
  cases perception with
  | deaf | nothing | parked u => exact ⟨.refl _ _, rfl, rfl, rfl, rfl⟩
  | words text u => exact e.turn_calm s w (.words text (facts u))
  | failed message => exact ⟨.tell _ _ rfl, rfl, rfl, rfl, rfl⟩

end Engine

def Session.bargesIn (s : Session μ) (f : Flow) (bytes : List UInt8) : Bool :=
  (s.outcome? bytes).any Speech.Outcome.started && f.settings.interruptible && s.playback.playing

structure Hears (e : Engine σ) (f : Flow) (s : Session μ) (w : World σ) (bytes : List UInt8)
    (s' : Session μ) (w' : World σ) : Prop where
  flow : s'.flow = s.flow
  id : s'.id = s.id
  segmenter : s'.segmenter =
    if s.talk.complete then s.segmenter else s.segmenter.map fun seg => (seg.process bytes).2
  playback : s'.playback = if s.bargesIn f bytes then s.playback.interrupt else s.playback
  told : ∃ events, Journal.events w'.journal = Journal.events w.journal ++ events ∧
    events.filter Event.isInterruption = if s.bargesIn f bytes then [.interrupted s.id] else []

namespace Engine
variable (e : Engine σ) (f : Flow) (s : Session μ) (w : World σ)

theorem perceive_hears (listens : f.settings.listens = true) (live : s.talk.complete = false)
    {seg : Speech.Segmenter μ Unit} (segmenter : s.segmenter = some seg) (bytes : List UInt8) :
    Hears e f s w bytes (e.perceive f s w bytes).2.1 (e.perceive f s w bytes).2.2 := by
  have next : (if s.talk.complete then s.segmenter else
      s.segmenter.map fun seg => (seg.process bytes).2) = some (seg.process bytes).2 := by
    rw [live, segmenter]
    rfl
  have barges : s.bargesIn f bytes =
      ((seg.process bytes).1.started && f.settings.interruptible && s.playback.playing) := by
    rw [Session.bargesIn, Session.outcome?, live, segmenter]
    rfl
  have barged : Hears e f s w bytes
      (e.bargeIn f { s with segmenter := some (seg.process bytes).2 }
        (seg.process bytes).1.started w).1
      (e.bargeIn f { s with segmenter := some (seg.process bytes).2 }
        (seg.process bytes).1.started w).2 := by
    unfold bargeIn
    dsimp only
    rw [← barges]
    cases h : s.bargesIn f bytes with
    | true => exact ⟨rfl, rfl, next.symm, by rw [h]; rfl, [.interrupted s.id],
        Journal.events_append _ _, by rw [h]; rfl⟩
    | false => exact ⟨rfl, rfl, next.symm, by rw [h]; rfl, [], (List.append_nil _).symm,
        by rw [h]; rfl⟩
  unfold perceive
  rw [segmenter, listens]
  dsimp only
  split
  · exact barged
  · obtain ⟨events, told, interruptions⟩ := barged.told
    exact { barged with told := ⟨events, by rw [understand_journal, told], interruptions⟩ }

theorem takeFrame_hears (loaded : e.flow? s.flow = some f) (listens : f.settings.listens = true)
    (hears : s.segmenter.isSome = true) (bytes : List UInt8) :
    Hears e f s w bytes (e.takeFrame s bytes w).2.1 (e.takeFrame s bytes w).2.2 := by
  cases complete : s.talk.complete with
  | true =>
    have silent : s.bargesIn f bytes = false := by
      rw [Session.bargesIn, Session.outcome?, complete]
      rfl
    have taken : e.takeFrame s bytes w = (none, s, w) := by
      rw [takeFrame, complete]
      rfl
    rw [taken]
    exact ⟨rfl, rfl, by rw [complete]; rfl, by rw [silent]; rfl, [], (List.append_nil _).symm,
      by rw [silent]; rfl⟩
  | false =>
    obtain ⟨seg, segmenter⟩ := Option.isSome_iff_exists.mp hears
    have heard := e.perceive_hears f s w listens complete segmenter bytes
    rw [e.takeFrame_eq f s w loaded complete]
    generalize e.perceive f s w bytes = x at heard ⊢
    obtain ⟨perception, s', w'⟩ := x
    obtain ⟨⟨more, ⟨⟨log, journal, rfl⟩, -⟩, calm⟩, undisturbed⟩ := e.respond_calm f s' w' perception
    obtain ⟨events, told, interruptions⟩ := heard.told
    refine ⟨undisturbed.flow.trans heard.flow, undisturbed.id.trans heard.id,
      undisturbed.segmenter.trans heard.segmenter, undisturbed.playback.trans heard.playback,
      events ++ Journal.events log, ?_, ?_⟩
    · dsimp only
      rw [journal, Journal.events_append, told, List.append_assoc]
    · have none : (Journal.events log).filter Event.isInterruption = [] := by simpa using calm
      rw [List.filter_append, interruptions, none, List.append_nil]

end Engine

end Dialogue
