import Dialogue.Proofs.Segmentation
import Dialogue.Proofs.Utterance
/-!
Transcriptions that fail. Main statement: each one is excused once and is not counted, however many
there are in a row.
-/
namespace Dialogue

open Journal (Quiet)

variable {σ μ : Type}

namespace Occasion
variable (o : Occasion σ) (f : Flow) (s : Session μ)

def isWordless : Bool := (o.engine.cue? s ⟨o.state, []⟩ f o.request).isNone

def mishears : Bool :=
  match o.request with
  | .frame bytes => (o.engine.perceive f s ⟨o.state, []⟩ bytes).1.isFailed
  | _ => false

end Occasion

namespace Session

def wordless (f : Flow) (s : Session μ) : List (Occasion σ) → Bool
  | [] => true
  | o :: rest => o.isWordless f s && wordless f (o.after s) rest

def mishearings (f : Flow) (s : Session μ) : List (Occasion σ) → Nat
  | [] => 0
  | o :: rest => (o.mishears f s).toNat + mishearings f (o.after s) rest

end Session

def Flow.excuses (f : Flow) (node : String) (times : Nat) : List Turn :=
  List.replicate times ⟨.agent, f.settings.errorMessage, node, []⟩

structure Excuses (f : Flow) (times : Nat) (t t' : Talk) (log : List Entry) : Prop where
  talk : t' = { t with turns := t.turns ++ f.excuses t.node times }
  quiet : Quiet log

namespace Excuses
variable {f : Flow} {t t' t'' : Talk} {log log' : List Entry}

theorem none (f : Flow) (t : Talk) : Excuses f 0 t t [] where
  talk := by simp [Flow.excuses]
  quiet := Journal.quiet_nil

theorem trans {k k' : Nat} (h : Excuses f k t t' log) (h' : Excuses f k' t' t'' log') :
    Excuses f (k + k') t t'' (log ++ log') where
  talk := by
    rw [h'.talk, h.talk]
    simp [Flow.excuses, List.replicate_append_replicate]
  quiet := Journal.quiet_append h.quiet h'.quiet

theorem complete {k : Nat} (h : Excuses f k t t' log) : t'.complete = t.complete := by
  rw [h.talk]

end Excuses

namespace Engine
variable (e : Engine σ) (f : Flow) (s : Session μ) (w : World σ)

theorem respond_excuses {perception : Perception} (h : perception.cue? = none) :
    (e.respond f s w perception).2.1.talk =
        { s.talk with
          turns := s.talk.turns ++ f.excuses s.talk.node perception.isFailed.toNat } ∧
      w.Still (e.respond f s w perception).2.2 := by
  cases perception with
  | deaf | nothing | parked u => exact ⟨by simp [respond, Flow.excuses, Perception.isFailed], .refl w⟩
  | words text u => cases h
  | failed message => exact ⟨rfl, e.services.tell_still _ w rfl⟩

end Engine

theorem Occasion.excuses (o : Occasion σ) {f : Flow} {s : Session μ}
    (loaded : o.engine.flow? s.flow = some f) (live : s.talk.complete = false)
    (wordless : o.isWordless f s = true) :
    Excuses f (o.mishears f s).toNat s.talk (o.after s).talk (o.log s) := by
  rw [isWordless, Option.isNone_iff_eq_none] at wordless
  cases hreq : o.request with
  | start | text =>
    rw [hreq] at wordless
    cases wordless
  | frame bytes =>
    rw [hreq] at wordless
    have hout : o.outcome s = o.engine.takeFrame s bytes ⟨o.state, []⟩ := by
      rw [outcome, hreq]
      rfl
    rw [o.engine.takeFrame_eq f s _ loaded live] at hout
    obtain ⟨talk, -, -, still, -⟩ := o.engine.perceive_attends f s ⟨o.state, []⟩ bytes
    obtain ⟨htalk, hstill⟩ := o.engine.respond_excuses f
      (o.engine.perceive f s ⟨o.state, []⟩ bytes).2.1
      (o.engine.perceive f s ⟨o.state, []⟩ bytes).2.2 wordless
    obtain ⟨log, hlog, hq⟩ := still.trans hstill
    have hmishears : o.mishears f s =
        (o.engine.perceive f s ⟨o.state, []⟩ bytes).1.isFailed := by
      rw [mishears, hreq]
    refine ⟨?_, ?_⟩
    · rw [after, hout, hmishears, ← talk]
      exact htalk
    · rw [Occasion.log, hout]
      rw [List.nil_append] at hlog
      rw [← hlog] at hq
      exact hq

/-- Frames of sound without words leave a session as it is, but for what is said of each
transcription that failed: however many have, none is counted as a failed turn, no node is executed
and the session neither moves nor ends. -/
theorem mishearings_uncounted (f : Flow) (s : Session μ) (os : List (Occasion σ))
    (kept : ∀ o ∈ os, o.engine.flow? s.flow = some f) (live : s.talk.complete = false)
    (wordless : s.wordless f os = true) :
    Excuses f (s.mishearings f os) s.talk (s.run os).talk (s.log os) := by
  induction os generalizing s with
  | nil => exact .none f s.talk
  | cons o os ih =>
    rw [Session.wordless, Bool.and_eq_true] at wordless
    have loaded := kept o List.mem_cons_self
    have first := o.excuses loaded live wordless.1
    have rest := ih (o.after s) (by
      rw [(o.comes s loaded).2.1]
      exact fun o' h => kept o' (List.mem_cons_of_mem o h)) (first.complete.trans live) wordless.2
    exact first.trans rest

def booth : Flow where
  document :=
    { id := "booth", name := "", version := "1.0.0", description := none
      settings := { Flow.Settings.standard with
        maxRetries := 1
        speech := { Speech.Settings.standard with
          minSpeech := 0, endSilence := 0, energyFilter := false } }
      start := "desk", nodes := [.ofKind "desk" (.conversation .standard)]
      createdAt := none, updatedAt := none }
  sound := by decide

def boothEngine : Engine Unit where
  config := .standard
  flows := [("booth", booth)]
  services := ⟨fun _ _ _ => (.ok "", ()), [], some ⟨fun _ _ _ _ _ => (.error "down", ())⟩, [],
    fun _ => .asListed⟩

def boothSession : Session Unit :=
  ⟨"booth", "s", ⟨"desk", .ofInitial [], [], 0, false, none⟩,
    some ⟨booth.settings.speech, .model Speech.nonzero (), .silent, #[], none, none, ()⟩, .idle, none⟩

def boothRun (times : Nat) : List (Occasion Unit) :=
  (List.replicate times [[1, 0], [0, 0]]).flatten.map fun bytes => ⟨boothEngine, (), .frame bytes⟩

theorem booth_waits :
    let s' := boothSession.run (boothRun 3)
    boothSession.wordless booth (boothRun 3) = true ∧
      boothSession.mishearings booth (boothRun 3) = 3 ∧
      s'.talk.turns.length = 3 ∧ s'.talk.retries = 0 ∧ s'.talk.complete = false := by
  intro s'
  have hrun : boothSession.wordless booth (boothRun 3) = true ∧
      boothSession.mishearings booth (boothRun 3) = 3 := by decide +kernel
  obtain ⟨wordless, hcount⟩ := hrun
  obtain ⟨talk, -⟩ := mishearings_uncounted booth boothSession (boothRun 3) (by
    intro o ho
    obtain ⟨bytes, -, rfl⟩ := List.mem_map.mp ho
    rfl) rfl wordless
  rw [hcount] at talk
  refine ⟨wordless, hcount, ?_, ?_, ?_⟩ <;> rw [talk] <;> rfl

/-- As many transcriptions have failed as turns may fail, and the session is not over. -/
theorem booth_unspent :
    let s' := boothSession.run (boothRun 1)
    (∃ opened : Session Unit, boothEngine.create "booth" "s" [] = .ok opened ∧
      opened.install Speech.nonzero () = .ok boothSession) ∧
    boothSession.talk.complete = false ∧ booth.settings.fallback = none ∧
    boothSession.mishearings booth (boothRun 1) = max 1 booth.settings.maxRetries ∧
    s'.talk.complete = false ∧ s'.talk.retries = 0 := by
  intro s'
  refine ⟨⟨_, rfl, rfl⟩, ?_⟩
  decide +kernel

end Dialogue
