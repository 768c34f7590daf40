import Dialogue.Proofs.Journal
/-!
What passes between a session and its services: the generator is asked, functions are called,
observers are told of events. An observer that keeps a record has heard exactly what was told.
-/
namespace Dialogue

def Event.isSaid : Event → Bool
  | said .. => true
  | _ => false

def Entry.event? : Entry → Option Event
  | .told event => some event
  | _ => none

namespace Journal

def events (log : List Entry) : List Event := log.filterMap Entry.event?

theorem events_append (log more : List Entry) :
    events (log ++ more) = events log ++ events more := List.filterMap_append

end Journal

variable {σ : Type}

namespace Services

inductive Uses (s : Services σ) (w : World σ) : List Event → World σ → Prop where
  | start : Uses s w [] w
  | ask {events : List Event} {w' : World σ} (before : Uses s w events w') (prompt : String)
      (context : Option Context) : Uses s w events (s.ask prompt context w').2
  | call {events : List Event} {w' : World σ} (before : Uses s w events w') (name : String)
      (parameters : Table Json.Value) : Uses s w events (s.call name parameters w').2
  | tell {events : List Event} {w' : World σ} (before : Uses s w events w') (event : Event) :
      Uses s w (events ++ [event]) (s.tell event w')

variable {s : Services σ} {w w' w'' : World σ} {events more : List Event}

theorem Uses.trans (h : s.Uses w events w') (h' : s.Uses w' more w'') :
    s.Uses w (events ++ more) w'' := by
  induction h' with
  | start => rwa [List.append_nil]
  | ask _ prompt context ih => exact ih.ask prompt context
  | call _ name parameters ih => exact ih.call name parameters
  | tell _ event ih =>
    rw [← List.append_assoc]
    exact ih.tell event

theorem Uses.trans_silent (h : s.Uses w events w') (h' : s.Uses w' [] w'') : s.Uses w events w'' :=
  List.append_nil events ▸ h.trans h'

/-- Using the services executes no node, and of itself it moves no session. -/
theorem Uses.still (h : s.Uses w events w')
    (quiet : ∀ event ∈ events, (Entry.told event).isQuiet = true) : w.Still w' := by
  induction h with
  | start => exact World.Still.refl w
  | ask _ prompt context ih => exact (ih quiet).trans (s.ask_still prompt context _)
  | call _ name parameters ih => exact (ih quiet).trans (s.call_still name parameters _)
  | tell _ event ih =>
    have before := ih fun e he => quiet e (List.mem_append_left _ he)
    exact before.trans (s.tell_still event _ (quiet event (by simp)))

structure Records (s : Services σ) (heard : σ → List Event) : Prop where
  generator : ∀ prompt context state, heard (s.generate prompt context state).2 = heard state
  functions : ∀ name function, s.functions.get? name = some function →
    ∀ parameters state, heard (function parameters state).2 = heard state
  transcriber : ∀ t, s.transcriber = some t → ∀ bytes rate channels language state,
    heard (t.hear bytes rate channels language state).2 = heard state
  observers : ∃ before observer after, s.observers = before ++ observer :: after ∧
    (∀ o ∈ before ++ after, ∀ event state, heard (o event state).2 = heard state) ∧
    ∀ event state, heard (observer event state).2 = heard state ++ [event]

namespace Records
variable {heard : σ → List Event}

theorem notify_others {others : List (Observer σ)}
    (h : ∀ o ∈ others, ∀ event state, heard (o event state).2 = heard state) (event : Event)
    (state : σ) : heard (notify others event state) = heard state := by
  induction others generalizing state with
  | nil => rfl
  | cons o rest ih =>
    have hrest := ih fun o' ho' => h o' (List.mem_cons_of_mem o ho')
    rw [notify, List.foldl_cons]
    exact (hrest _).trans (h o List.mem_cons_self event state)

theorem tell (h : s.Records heard) (event : Event) (w : World σ) :
    heard (s.tell event w).state = heard w.state ++ [event] := by
  obtain ⟨before, observer, after, hall, hothers, hown⟩ := h.observers
  have hbefore := notify_others fun o ho => hothers o (List.mem_append_left _ ho)
  have hafter := notify_others fun o ho => hothers o (List.mem_append_right _ ho)
  change heard (notify s.observers event w.state) = _
  rw [hall, notify, List.foldl_append, List.foldl_cons]
  calc heard (notify after event (observer event (notify before event w.state)).2)
      = heard (observer event (notify before event w.state)).2 := hafter event _
    _ = heard (notify before event w.state) ++ [event] := hown event _
    _ = heard w.state ++ [event] := by rw [hbefore]

end Records

/-- Between two worlds the observers were told of events: these are in the journal, and an observer
that keeps a record has heard of exactly these. -/
structure Tells (s : Services σ) (events : List Event) (w w' : World σ) : Prop where
  journal : ∃ log, w'.journal = w.journal ++ log ∧ Journal.events log = events
  heard : ∀ heard, s.Records heard → heard w'.state = heard w.state ++ events

namespace Tells

theorem refl (s : Services σ) (w : World σ) : s.Tells [] w w where
  journal := ⟨[], by simp, rfl⟩
  heard _ _ := by simp

theorem trans (h : s.Tells events w w') (h' : s.Tells more w' w'') :
    s.Tells (events ++ more) w w'' where
  journal := by
    obtain ⟨log, e, hlog⟩ := h.journal
    obtain ⟨rest, e', hrest⟩ := h'.journal
    refine ⟨log ++ rest, by rw [e', e, List.append_assoc], ?_⟩
    rw [Journal.events_append, hlog, hrest]
  heard heard hr := by rw [h'.heard heard hr, h.heard heard hr, List.append_assoc]

theorem trans_silent (h : s.Tells events w w') (h' : s.Tells [] w' w'') : s.Tells events w w'' :=
  List.append_nil events ▸ h.trans h'

theorem tell (s : Services σ) (event : Event) (w : World σ) :
    s.Tells [event] w (s.tell event w) where
  journal := ⟨[.told event], rfl, rfl⟩
  heard _ hr := hr.tell event w

/-- What is no event leaves the records as they are. -/
theorem of_entry {entry : Entry} (journal : w'.journal = w.journal ++ [entry])
    (silent : entry.event? = none) (kept : ∀ heard, s.Records heard → heard w'.state = heard w.state) :
    s.Tells [] w w' where
  journal := ⟨[entry], journal, by simp [Journal.events, silent]⟩
  heard heard hr := by rw [kept heard hr, List.append_nil]

theorem ask (s : Services σ) (prompt : String) (context : Option Context) (w : World σ) :
    s.Tells [] w (s.ask prompt context w).2 :=
  .of_entry rfl rfl fun _ hr => hr.generator prompt context w.state

theorem call (s : Services σ) (name : String) (parameters : Table Json.Value) (w : World σ) :
    s.Tells [] w (s.call name parameters w).2 := by
  unfold Services.call
  split
  · exact refl s w
  · next function hf =>
    exact .of_entry rfl rfl fun _ hr => hr.functions name function hf parameters w.state

theorem ran (s : Services σ) (w : World σ) (node : String) (input : Option String) (r : Result) :
    s.Tells [] w (w.note (.ran node input r)) :=
  .of_entry rfl rfl fun _ _ => rfl

/-- What comes before anything is said does not count among what is said. -/
theorem said_after {said : List Event} (h : s.Tells events w w')
    (other : ∀ event ∈ events, event.isSaid = false)
    (told : ∃ events, s.Tells events w' w'' ∧ events.filter Event.isSaid = said) :
    ∃ events, s.Tells events w w'' ∧ events.filter Event.isSaid = said := by
  obtain ⟨rest, hrest, hsaid⟩ := told
  have hnone : events.filter Event.isSaid = [] := by simpa using other
  exact ⟨events ++ rest, h.trans hrest, by rw [List.filter_append, hnone, hsaid, List.nil_append]⟩

end Tells

theorem Uses.tells (h : s.Uses w events w') : s.Tells events w w' := by
  induction h with
  | start => exact Tells.refl s w
  | ask _ prompt context ih => exact ih.trans_silent (Tells.ask s prompt context _)
  | call _ name parameters ih => exact ih.trans_silent (Tells.call s name parameters _)
  | tell _ event ih => exact ih.trans (Tells.tell s event _)

end Services
end Dialogue
