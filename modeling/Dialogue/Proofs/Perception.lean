import Dialogue.Proofs.Turn
/-!
What a frame of sound brings to the conversation. A frame is taken in two parts: what is perceived
leaves the conversation where it stands, and only what is perceived decides on the answer.
-/
namespace Dialogue

variable {σ μ : Type}

inductive Perception where
  | deaf
  | nothing
  | parked (u : Speech.Utterance)
  | words (text : String) (u : Speech.Utterance)
  | failed (message : String)

namespace Perception

def ofTranscript (u : Speech.Utterance) : Except String (Option String) → Perception
  | .ok none => .nothing
  | .ok (some text) => .words text u
  | .error message => .failed message

def cue? : Perception → Option Cue
  | words text u => some (.words text (Engine.facts u))
  | _ => none

def isFailed : Perception → Bool
  | failed _ => true
  | _ => false

end Perception

namespace Engine
variable (e : Engine σ) (f : Flow) (s : Session μ) (w : World σ)

def understand (u : Speech.Utterance) : Perception × World σ :=
  match e.services.transcriber with
  | none => (.parked u, w)
  | some transcriber =>
    let language := if f.settings.language = "" then e.config.language else f.settings.language
    let (heard, state) :=
      transcriber.transcribe u.bytes u.rate e.config.channels language w.state
    (.ofTranscript u heard, { w with state })

def perceive (frame : List UInt8) : Perception × Session μ × World σ :=
  match s.segmenter, f.settings.listens with
  | some segmenter, true =>
    let (outcome, segmenter) := segmenter.process frame
    let (s, w) := e.bargeIn f { s with segmenter := some segmenter } outcome.started w
    match outcome.utterance with
    | none => (.nothing, s, w)
    | some u =>
      let (perception, w) := e.understand f w u
      (perception, s, w)
  | _, _ => (.deaf, s, w)

def respond : Perception → Option Result × Session μ × World σ
  | .deaf => (some (.ofFault .notListening), s, w)
  | .nothing => (none, s, w)
  | .parked u =>
    (some { Result.ofKind .waiting with metadata := facts u }, { s with parked := some u }, w)
  | .words text u =>
    let (r, s, w) := e.turn s w (.words text (facts u))
    (some r, s, w)
  | .failed message =>
    let (r, s, w) := e.misheard f s message w
    (some r, s, w)

theorem takeUtterance_eq (u : Speech.Utterance) :
    e.takeUtterance f s u w =
      let (perception, w) := e.understand f w u
      e.respond f s w perception := by
  unfold takeUtterance understand
  cases e.services.transcriber with
  | none => rfl
  | some transcriber =>
    dsimp only
    generalize transcriber.transcribe u.bytes u.rate e.config.channels _ w.state = x
    obtain ⟨heard, state⟩ := x
    match heard with
    | .ok none | .ok (some _) | .error _ => rfl

theorem takeFrame_eq (loaded : e.flow? s.flow = some f) (live : s.talk.complete = false)
    (frame : List UInt8) :
    e.takeFrame s frame w =
      let (perception, s, w) := e.perceive f s w frame
      e.respond f s w perception := by
  simp only [takeFrame, live, loaded, Bool.false_eq_true, if_false, perceive]
  cases s.segmenter with
  | none => rfl
  | some segmenter =>
    cases f.settings.listens with
    | false => rfl
    | true =>
      dsimp only
      cases (segmenter.process frame).1.utterance with
      | none => rfl
      | some u => exact e.takeUtterance_eq f _ _ u

theorem understand_journal (u : Speech.Utterance) :
    (e.understand f w u).2.journal = w.journal := by
  unfold understand
  split <;> rfl

theorem understand_tells (u : Speech.Utterance) : e.services.Tells [] w (e.understand f w u).2 where
  journal := ⟨[], by rw [e.understand_journal, List.append_nil], rfl⟩
  heard heard hr := by
    rw [List.append_nil]
    unfold understand
    split
    · rfl
    · next t ht =>
      -- empty sound is not sent to the transcriber
      have hkept : ∀ language, heard (t.transcribe u.bytes u.rate e.config.channels language
          w.state).2 = heard w.state := by
        intro language
        have hhear := hr.transcriber t ht u.bytes u.rate e.config.channels language w.state
        unfold Speech.Transcriber.transcribe
        split
        · rfl
        · split
          · next h => rw [h] at hhear; exact hhear
          · next h => rw [h] at hhear; exact hhear
      exact hkept _

end Engine

structure Attends (e : Engine σ) (s : Session μ) (w : World σ) (s' : Session μ) (w' : World σ) :
    Prop where
  talk : s'.talk = s.talk
  flow : s'.flow = s.flow
  id : s'.id = s.id
  still : w.Still w'
  told : ∃ events, e.services.Tells events w w' ∧ ∀ event ∈ events, event.isSaid = false

namespace Engine
variable (e : Engine σ) (f : Flow) (s : Session μ) (w : World σ)

theorem bargeIn_attends (started : Bool) :
    Attends e s w (e.bargeIn f s started w).1 (e.bargeIn f s started w).2 := by
  unfold bargeIn
  split
  · exact ⟨rfl, rfl, rfl, e.services.tell_still _ w rfl, _, .tell e.services _ w,
      by simp [Event.isSaid]⟩
  · exact ⟨rfl, rfl, rfl, .refl w, [], .refl e.services w, by simp⟩

theorem perceive_attends (frame : List UInt8) :
    Attends e s w (e.perceive f s w frame).2.1 (e.perceive f s w frame).2.2 := by
  unfold perceive
  split
  · next segmenter _ _ =>
    obtain ⟨talk, flow, id, still, events, told, other⟩ := e.bargeIn_attends f
      { s with segmenter := some (segmenter.process frame).2 } w (segmenter.process frame).1.started
    dsimp only
    split
    · exact ⟨talk, flow, id, still, events, told, other⟩
    · next u _ =>
      have still' := still.trans (.of_journal (e.understand_journal f _ u))
      exact ⟨talk, flow, id, still', events, told.trans_silent (e.understand_tells f _ u), other⟩
  · exact ⟨rfl, rfl, rfl, .refl w, [], .refl e.services w, by simp⟩

end Engine
end Dialogue
