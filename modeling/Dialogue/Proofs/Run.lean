import Dialogue.Proofs.Perception
/-!
Runs of a session: requests in any order, each of them met by services in any state. A request
begins a turn, or it leaves the conversation where it stands.
-/
namespace Dialogue

variable {σ μ : Type}

inductive Request where
  | start
  | text (text : String)
  | frame (bytes : List UInt8)

namespace Request

/-- A start or words begin a turn; a frame does when it ends an utterance that is written down. -/
def begins : Request → Bool
  | frame _ => false
  | _ => true

def closing : Request → Option Result
  | frame _ => none
  | _ => some Engine.ended

theorem closing_kind (request : Request) (r : Result) (h : request.closing = some r) :
    r.kind = .ended := by
  cases request <;> cases h <;> rfl

end Request

inductive Answers (e : Engine σ) (f : Flow) (s : Session μ) (w : World σ) :
    Option Result → Session μ → World σ → Prop where
  | idle (result : Option Result) (s' : Session μ) (w' : World σ) (flow : s'.flow = s.flow)
      (id : s'.id = s.id) (turns : List Turn) (talk : s'.talk = { s.talk with turns })
      (still : w.Still w')
      (fault : ∀ r, result = some r → ∀ id, r.fault ≠ some (.nodeNotFound id)) :
      Answers e f s w result s' w'
  | turn (cue : Cue) (s' : Session μ) (w' : World σ) (flow : s'.flow = s.flow) (id : s'.id = s.id)
      (talk : s'.talk = s.talk) (still : w.Still w') :
      Answers e f s w (some (e.turn s' w' cue).1) (e.turn s' w' cue).2.1 (e.turn s' w' cue).2.2

/-- What happens before a request is answered makes no difference, as long as the conversation
stands where it stood. -/
theorem Answers.of_still {e : Engine σ} {f : Flow} {s s₁ s' : Session μ} {w w₁ w' : World σ}
    {result : Option Result} (h : Answers e f s₁ w₁ result s' w') (flow : s₁.flow = s.flow)
    (id : s₁.id = s.id) (talk : s₁.talk = s.talk) (still : w.Still w₁) :
    Answers e f s w result s' w' := by
  cases h with
  | idle _ _ _ flow' id' turns talk' still' fault =>
    exact .idle result s' w' (flow'.trans flow) (id'.trans id) turns (by rw [talk', talk])
      (still.trans still') fault
  | turn cue s₂ w₂ flow' id' talk' still' =>
    exact .turn cue s₂ w₂ (flow'.trans flow) (id'.trans id) (talk'.trans talk)
      (still.trans still')

namespace Engine
variable (e : Engine σ) (s : Session μ) (w : World σ)

def answer : Request → Option Result × Session μ × World σ
  | .start => (some (e.start s w).1, (e.start s w).2)
  | .text text => (some (e.takeText s text w).1, (e.takeText s text w).2)
  | .frame bytes => e.takeFrame s bytes w

/-- A turn is heard only of words that were understood. -/
theorem respond_answers (f : Flow) (perception : Perception) :
    Answers e f s w (e.respond f s w perception).1 (e.respond f s w perception).2.1
      (e.respond f s w perception).2.2 := by
  cases perception with
  | deaf | nothing | parked u =>
    refine .idle _ _ _ rfl rfl s.talk.turns rfl (World.Still.refl w) ?_
    rintro r ⟨⟩ id ⟨⟩
  | words text u => exact .turn (.words text (facts u)) s w rfl rfl rfl (World.Still.refl w)
  | failed message =>
    refine .idle _ _ _ rfl rfl _ rfl (e.services.tell_still _ w rfl) ?_
    rintro r ⟨⟩ id ⟨⟩

theorem takeFrame_answers {f : Flow} (hf : e.flow? s.flow = some f)
    (live : s.talk.complete = false) (bytes : List UInt8) :
    Answers e f s w (e.takeFrame s bytes w).1 (e.takeFrame s bytes w).2.1
      (e.takeFrame s bytes w).2.2 := by
  obtain ⟨talk, flow, id, still, -⟩ := e.perceive_attends f s w bytes
  rw [e.takeFrame_eq f s w hf live]
  exact (e.respond_answers _ _ f _).of_still flow id talk still

theorem answer_complete (request : Request) (h : s.talk.complete = true) :
    e.answer s w request = (request.closing, s, w) := by
  cases request <;> simp [answer, Request.closing, start, takeText, hear, takeFrame, h]

end Engine

structure Occasion (σ : Type) where
  engine : Engine σ
  state : σ
  request : Request

namespace Occasion
variable (o : Occasion σ) (s : Session μ)

def outcome : Option Result × Session μ × World σ :=
  o.engine.answer s ⟨o.state, []⟩ o.request

def result : Option Result := (o.outcome s).1

def after : Session μ := (o.outcome s).2.1

def log : List Entry := (o.outcome s).2.2.journal

def turn (f : Flow) (cue : Cue) (sc : Scene σ) : Result × Scene σ :=
  (o.engine.stage f s).drive o.engine.config.continuations cue.input sc

end Occasion

structure Opens (s : Session μ) (sc : Scene σ) : Prop where
  node : sc.talk.node = s.talk.node
  retries : sc.talk.retries = s.talk.retries
  complete : sc.talk.complete = s.talk.complete
  ended : sc.talk.ended = s.talk.ended
  quiet : Journal.Quiet sc.world.journal

inductive Comes (o : Occasion σ) (f : Flow) (s : Session μ) : Prop where
  | closed (complete : s.talk.complete = true) (after : o.after s = s) (log : o.log s = [])
      (fault : ∀ r, o.result s = some r → ∀ id, r.fault ≠ some (.nodeNotFound id))
  | idle (frame : ∃ bytes, o.request = .frame bytes) (turns : List Turn)
      (talk : (o.after s).talk = { s.talk with turns }) (quiet : Journal.Quiet (o.log s))
      (fault : ∀ r, o.result s = some r → ∀ id, r.fault ≠ some (.nodeNotFound id))
  | turn (live : s.talk.complete = false) (cue : Cue) (sc : Scene σ) (opens : Opens s sc)
      (result : o.result s = some (o.turn s f cue sc).1)
      (talk : (o.after s).talk = (o.turn s f cue sc).2.talk)
      (log : o.log s = (o.turn s f cue sc).2.world.journal)

namespace Occasion
variable (o : Occasion σ) (s : Session μ)

/-- A turn begun on a session that stands where this one does. -/
theorem comes_turn {f : Flow} (loaded : o.engine.flow? s.flow = some f)
    (live : s.talk.complete = false) (cue : Cue) (s' : Session μ) (w' : World σ)
    (flow : s'.flow = s.flow) (id : s'.id = s.id) (talk : s'.talk = s.talk)
    (quiet : Journal.Quiet w'.journal)
    (h : o.outcome s = (some (o.engine.turn s' w' cue).1, (o.engine.turn s' w' cue).2)) :
    Comes o f s ∧ (o.after s).flow = s.flow ∧ (o.after s).id = s.id := by
  have hturn := o.engine.turn_live s' w' cue (flow ▸ loaded) (talk ▸ live)
  have hstage : o.engine.stage f s' = o.engine.stage f s := by simp [Engine.stage, id]
  rw [hturn, hstage] at h
  obtain ⟨log, hlog, hq⟩ := o.engine.opening_still s' w' cue
  have opens : Opens s (o.engine.opening s' w' cue) :=
    ⟨by simp [talk], by simp [talk], by simp [talk], by simp [talk],
      by rw [hlog]; exact Journal.quiet_append quiet hq⟩
  refine ⟨.turn live cue _ opens ?_ ?_ ?_, ?_, ?_⟩
  · rw [result, h]
    rfl
  · rw [after, h]
    rfl
  · rw [Occasion.log, h]
    rfl
  · rw [after, h]
    exact flow
  · rw [after, h]
    exact id

theorem comes {f : Flow} (loaded : o.engine.flow? s.flow = some f) :
    Comes o f s ∧ (o.after s).flow = s.flow ∧ (o.after s).id = s.id := by
  cases live : s.talk.complete with
  | true =>
    have h := o.engine.answer_complete s ⟨o.state, []⟩ o.request live
    have hafter : o.after s = s := by rw [after, outcome, h]
    refine ⟨.closed live hafter (by rw [log, outcome, h]) ?_, by rw [hafter], by rw [hafter]⟩
    intro r hr id
    rw [result, outcome, h] at hr
    cases hreq : o.request <;> rw [hreq] at hr <;> cases hr <;>
      simp [Engine.ended, Result.ofKind]
  | false =>
    cases hreq : o.request with
    | start =>
      exact o.comes_turn s loaded live .start s ⟨o.state, []⟩ rfl rfl rfl Journal.quiet_nil
        (by rw [outcome, hreq]; rfl)
    | text text =>
      exact o.comes_turn s loaded live (.words text []) s ⟨o.state, []⟩ rfl rfl rfl
        Journal.quiet_nil (by rw [outcome, hreq]; rfl)
    | frame bytes =>
      have h := o.engine.takeFrame_answers s ⟨o.state, []⟩ loaded live bytes
      have hout : o.outcome s = o.engine.takeFrame s bytes ⟨o.state, []⟩ := by
        rw [outcome, hreq]
        rfl
      generalize o.engine.takeFrame s bytes ⟨o.state, []⟩ = x at h hout
      obtain ⟨result, s', w'⟩ := x
      cases h with
      | idle _ _ _ flow id turns talk still fault =>
        obtain ⟨log, hlog, hq⟩ := still
        refine ⟨.idle ⟨bytes, hreq⟩ turns ?_ ?_ ?_, ?_, ?_⟩
        · rwa [after, hout]
        · rw [Occasion.log, hout]
          dsimp only
          rw [hlog]
          exact hq
        · rwa [Occasion.result, hout]
        · rwa [after, hout]
        · rwa [after, hout]
      | turn cue s₁ w₁ flow id talk still =>
        obtain ⟨log, hlog, hq⟩ := still
        exact o.comes_turn s loaded live cue s₁ w₁ flow id talk (by rw [hlog]; exact hq) hout

end Occasion

namespace Session

def run (s : Session μ) : List (Occasion σ) → Session μ
  | [] => s
  | o :: rest => run (o.after s) rest

def log (s : Session μ) : List (Occasion σ) → List Entry
  | [] => []
  | o :: rest => o.log s ++ log (o.after s) rest

theorem run_append (s : Session μ) (before rest : List (Occasion σ)) :
    s.run (before ++ rest) = (s.run before).run rest := by
  induction before generalizing s with
  | nil => rfl
  | cons o before ih => exact ih (o.after s)

theorem log_append (s : Session μ) (before rest : List (Occasion σ)) :
    s.log (before ++ rest) = s.log before ++ (s.run before).log rest := by
  induction before generalizing s with
  | nil => rfl
  | cons o before ih => simp only [List.cons_append, log, run, ih, List.append_assoc]

theorem run_concat (s : Session μ) (before : List (Occasion σ)) (o : Occasion σ) :
    s.run (before ++ [o]) = o.after (s.run before) := s.run_append before [o]

theorem log_concat (s : Session μ) (before : List (Occasion σ)) (o : Occasion σ) :
    s.log (before ++ [o]) = s.log before ++ o.log (s.run before) := by
  rw [log_append, log, log, List.append_nil]

theorem run_flow {s : Session μ} {f : Flow} (os : List (Occasion σ))
    (kept : ∀ o ∈ os, o.engine.flow? s.flow = some f) : (s.run os).flow = s.flow := by
  induction os generalizing s with
  | nil => rfl
  | cons o os ih =>
    have hflow := (o.comes s (kept o List.mem_cons_self)).2.1
    rw [run, ih, hflow]
    rw [hflow]
    exact fun o' h => kept o' (List.mem_cons_of_mem o h)

/-- What holds of no occasions and is kept by every one holds of a whole run. -/
theorem run_induct {s : Session μ} {f : Flow} {P : List (Occasion σ) → Prop} (nil : P [])
    (concat : ∀ before o, P before → Comes o f (s.run before) → P (before ++ [o]))
    (os : List (Occasion σ)) (kept : ∀ o ∈ os, o.engine.flow? s.flow = some f) : P os := by
  suffices h : ∀ rest before, (∀ o ∈ before ++ rest, o.engine.flow? s.flow = some f) →
      P before → P (before ++ rest) from h os [] kept nil
  intro rest
  induction rest with
  | nil =>
    intro before _ hp
    rwa [List.append_nil]
  | cons o rest ih =>
    intro before hkept hp
    have hflow := run_flow before fun o' h => hkept o' (List.mem_append_left _ h)
    have ho := hkept o (List.mem_append_right _ List.mem_cons_self)
    have hcomes := (o.comes (s.run before) (by rwa [hflow])).1
    rw [List.append_cons] at hkept ⊢
    exact ih (before ++ [o]) hkept (concat before o hp hcomes)

end Session

def desk : Flow where
  document :=
    { id := "desk", name := "", version := "1.0.0", description := none
      settings := { Flow.Settings.standard with maxRetries := 2, listens := false }
      start := "desk", nodes := [.ofKind "desk" (.conversation .standard)]
      createdAt := none, updatedAt := none }
  sound := by decide

def deskEngine : Engine (Except String String) :=
  ⟨.standard, [("desk", desk)], ⟨fun _ _ answer => (answer, answer), [], none, [], fun _ => .asListed⟩⟩

def deskSession : Session Unit :=
  ⟨"desk", "s", ⟨"desk", .ofInitial [], [], 0, false, none⟩, none, .idle, none⟩

def deskTurn (answer : Except String String) : Occasion (Except String String) :=
  ⟨deskEngine, answer, .text "hello"⟩

theorem desk_kept (answers : List (Except String String)) :
    ∀ o ∈ answers.map deskTurn, o.engine.flow? desk.id = some desk := by
  intro o ho
  obtain ⟨answer, -, rfl⟩ := List.mem_map.mp ho
  rfl

end Dialogue
