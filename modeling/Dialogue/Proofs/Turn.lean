import Dialogue.Engine
import Dialogue.Proofs.Step
/-!
A turn is a chain of steps, begun by the start of a session or by words of the user. What all its
steps keep, the turn keeps.
-/
namespace Dialogue

variable {σ μ : Type}

namespace Stage
variable (st : Stage σ)

def proceed : Nat → Scene σ → Result × Scene σ
  | 0, sc => st.handOff (.continuationLimit st.config.continuations) "continuation_limit" sc
  | left + 1, sc => st.drive left none sc

theorem drive_done {left : Nat} {input : Option String} {sc sc' : Scene σ} {r : Result}
    (h : st.step input sc = .done r sc') : st.drive left input sc = (r, sc') := by
  rw [drive, h]

theorem drive_goOn {left : Nat} {input : Option String} {sc sc' : Scene σ}
    (h : st.step input sc = .goOn sc') : st.drive left input sc = st.proceed left sc' := by
  rw [drive, h]
  cases left <;> rfl

/-- What holds at the first scene and is kept by every step holds up to the last step. -/
theorem drive_induct {P : Scene σ → Prop} {Q : Result → Scene σ → Prop}
    (done : ∀ input sc r sc', P sc → st.step input sc = .done r sc' → Q r sc')
    (goOn : ∀ input sc sc', P sc → st.step input sc = .goOn sc' → P sc')
    (cut : ∀ input sc sc', P sc → st.step input sc = .goOn sc' →
      Q (st.proceed 0 sc').1 (st.proceed 0 sc').2)
    (left : Nat) (input : Option String) (sc : Scene σ) (h : P sc) :
    Q (st.drive left input sc).1 (st.drive left input sc).2 := by
  induction left generalizing input sc with
  | zero =>
    cases hs : st.step input sc with
    | done r sc' =>
      rw [st.drive_done hs]
      exact done input sc r sc' h hs
    | goOn sc' =>
      rw [st.drive_goOn hs]
      exact cut input sc sc' h hs
  | succ left ih =>
    cases hs : st.step input sc with
    | done r sc' =>
      rw [st.drive_done hs]
      exact done input sc r sc' h hs
    | goOn sc' =>
      rw [st.drive_goOn hs]
      exact ih none sc' (goOn input sc sc' h hs)

end Stage

inductive Cue where
  | start
  | words (text : String) (facts : Table Json.Value)

def Cue.input : Cue → Option String
  | start => none
  | words text _ => some text

namespace Engine
variable (e : Engine σ) (s : Session μ) (w : World σ)

def turn : Cue → Result × Session μ × World σ
  | .start => e.start s w
  | .words text facts => e.hear s text facts w

def opening : Cue → Scene σ
  | .start => ⟨s.talk, [], e.services.tell (.entered s.id none s.talk.node) w⟩
  | .words text facts => ⟨s.talk.add ⟨.user, text, s.talk.node, facts⟩, [], w⟩

theorem takeText_eq_turn (text : String) : e.takeText s text w = e.turn s w (.words text []) := rfl

theorem turn_live (cue : Cue) {f : Flow} (hf : e.flow? s.flow = some f)
    (h : s.talk.complete = false) :
    e.turn s w cue =
      let (r, sc) := (e.stage f s).drive e.config.continuations cue.input (e.opening s w cue)
      (r, { s with talk := sc.talk }, sc.world) := by
  cases cue <;> simp [turn, start, hear, h, hf, play, Stage.run, opening, Cue.input, stage]

@[simp] theorem opening_node (cue : Cue) : (e.opening s w cue).talk.node = s.talk.node := by
  cases cue <;> rfl

@[simp] theorem opening_retries (cue : Cue) :
    (e.opening s w cue).talk.retries = s.talk.retries := by
  cases cue <;> rfl

@[simp] theorem opening_complete (cue : Cue) :
    (e.opening s w cue).talk.complete = s.talk.complete := by
  cases cue <;> rfl

@[simp] theorem opening_ended (cue : Cue) : (e.opening s w cue).talk.ended = s.talk.ended := by
  cases cue <;> rfl

theorem opening_still (cue : Cue) : w.Still (e.opening s w cue).world := by
  cases cue with
  | start => exact e.services.tell_still _ w rfl
  | words text facts => exact World.Still.refl w

end Engine
end Dialogue
