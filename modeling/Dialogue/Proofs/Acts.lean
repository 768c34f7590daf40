import Dialogue.Proofs.Step
import Dialogue.Proofs.Turn
/-!
A turn as a chain of acts: nodes are executed, the agent says something, the session moves, a failure
is counted, the conversation is closed. What every act keeps, the turn keeps.
-/
namespace Dialogue

variable {σ : Type}

def Step.scene : Step σ → Scene σ
  | done _ sc => sc
  | goOn sc => sc

namespace Stage

inductive Acts (st : Stage σ) (sc : Scene σ) : Scene σ → Prop where
  | none : Acts st sc sc
  | execute {sc' : Scene σ} (before : Acts st sc sc') (n : Flow.Node) (input : Option String)
      (here : st.flow.node? sc'.talk.node = some n) : Acts st sc (st.executed n input sc').2
  | say {sc' : Scene σ} (before : Acts st sc sc') (node : String) (text : Option String) :
      Acts st sc (st.say node text sc')
  | move {sc' : Scene σ} (before : Acts st sc sc') (target : String) :
      Acts st sc (st.move target sc')
  | counted {sc' : Scene σ} (before : Acts st sc sc') : Acts st sc sc'.counted
  | closed {sc' : Scene σ} (before : Acts st sc sc') (reason : String) :
      Acts st sc (sc'.closed reason)

namespace Acts
variable {st : Stage σ} {sc sc' : Scene σ} (before : st.Acts sc sc')
include before

theorem excuse (node : String) (r : Result) : st.Acts sc (st.excuse node r sc') := by
  unfold Stage.excuse
  split
  · exact before.say node _
  · exact before

theorem handOff (fault : Fault) (reason : String) : st.Acts sc (st.handOff fault reason sc').2 :=
  (before.say _ _).closed reason

theorem settle {node : String} {r : Result} {step : Step σ} (h : Settles st node r sc' step) :
    st.Acts sc step.scene := by
  cases h with
  | concludes final => exact (before.say node _).closed _
  | triesAgain fails left => exact (before.counted.say node _).excuse node r
  | fallsBack fails spent target fallback => exact (before.counted.say node _).move target
  | givesUp fails spent fallback => exact (before.counted.say node _).handOff _ _
  | stays | strays => exact before.say node _
  | arrives fails target | goesOn fails target => exact (before.say node _).move target

theorem step (input : Option String) : st.Acts sc (st.step input sc').scene := by
  cases here : st.flow.node? sc'.talk.node with
  | none =>
    rw [st.step_missing input sc' here]
    exact before
  | some n =>
    have settled := st.settle_settles n.id (st.executed n input sc').1 (st.executed n input sc').2
    simp only [Stage.step, here]
    exact (before.execute n input here).settle settled

end Acts

theorem drive_acts (st : Stage σ) (left : Nat) (input : Option String) (sc : Scene σ) :
    st.Acts sc (st.drive left input sc).2 := by
  refine st.drive_induct (P := st.Acts sc) (Q := fun _ sc' => st.Acts sc sc') ?_ ?_ ?_ left input sc
    .none
  · intro input sc₁ r sc₂ before hs
    have after := before.step input
    rwa [hs] at after
  · intro input sc₁ sc₂ before hs
    have after := before.step input
    rwa [hs] at after
  · intro input sc₁ sc₂ before hs
    have after := before.step input
    rw [hs] at after
    exact after.handOff _ _

end Stage

/-- A turn leaves everything as it is, where no flow is loaded or the conversation is over, or it is
a chain of acts from its opening. -/
theorem Engine.turn_acts {μ : Type} (e : Engine σ) (s : Session μ) (w : World σ) (cue : Cue) :
    (e.turn s w cue).2 = (s, w) ∨
      ∃ f sc, e.flow? s.flow = some f ∧ (e.stage f s).Acts (e.opening s w cue) sc ∧
        (e.turn s w cue).2 = ({ s with talk := sc.talk }, sc.world) := by
  cases complete : s.talk.complete with
  | true => exact .inl (by cases cue <;> simp only [turn, start, hear, complete, if_true])
  | false =>
    cases loaded : e.flow? s.flow with
    | none =>
      exact .inl (by
        cases cue <;> simp only [turn, start, hear, complete, loaded, Bool.false_eq_true, if_false])
    | some f =>
      have acts := (e.stage f s).drive_acts e.config.continuations cue.input (e.opening s w cue)
      rw [e.turn_live s w cue loaded complete]
      exact .inr ⟨f, _, rfl, acts, rfl⟩

end Dialogue
