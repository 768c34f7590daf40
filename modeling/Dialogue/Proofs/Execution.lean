import Dialogue.Execution.Run
import Dialogue.Proofs.Telling
/-!
What holds of the result of every node, whatever the services answer. Its target is that of an
edge of the node, it is final only on the nodes that end a session, and while a node is executed
the observers are told of nothing but the words before a call.
-/
namespace Dialogue

open Dialogue.Flow (Node Edge Conversation Call Extraction Wanted)

variable {σ : Type}

namespace Choice

theorem judged_mem (s : Services σ) (vars : Variables) (input : String) (edges : List Edge)
    (w : World σ) (e : Edge) (h : (judged s vars input edges w).1 = some e) : e ∈ edges := by
  induction edges generalizing w with
  | nil => simp [judged] at h
  | cons e' rest ih =>
    simp only [judged] at h
    split at h
    · exact List.mem_cons_of_mem _ (ih _ h)
    · split at h
      · simp only [Option.some.injEq] at h
        simp [h]
      · exact List.mem_cons_of_mem _ (ih _ h)

theorem judged_uses (s : Services σ) (vars : Variables) (input : String) (edges : List Edge)
    (w : World σ) : s.Uses w [] (judged s vars input edges w).2 := by
  induction edges generalizing w with
  | nil => exact .start
  | cons e rest ih =>
    simp only [judged]
    split
    · exact ih w
    · next question _ =>
      have hask : s.Uses w [] (s.ask question none w).2 := .ask .start question none
      split
      · exact hask
      · exact hask.trans (ih _)

end Choice

theorem mem_edgesInOrder (n : Node) (e : Edge) : e ∈ n.edgesInOrder ↔ e ∈ n.edges :=
  List.mem_mergeSort

/-- A node is left by one of its own edges. -/
theorem choose_target (s : Services σ) (n : Node) (input : Option String) (vars : Variables)
    (w : World σ) (target : String) (h : (choose s n input vars w).1 = some target) :
    ∃ e ∈ n.edges, e.target = target := by
  simp only [choose] at h
  split at h
  · next e he =>
    simp only [Option.some.injEq] at h
    exact ⟨e, (mem_edgesInOrder n e).mp (List.mem_of_find?_eq_some he), h⟩
  · obtain ⟨e, he, rfl⟩ := Option.map_eq_some_iff.mp h
    refine ⟨e, (mem_edgesInOrder n e).mp ?_, rfl⟩
    rcases Option.or_eq_some_iff.mp he with hj | ⟨-, hd⟩
    · split at hj
      · simp at hj
      · exact Choice.judged_mem s vars _ _ w e hj
    · exact List.mem_of_find?_eq_some hd

theorem choose_uses (s : Services σ) (n : Node) (input : Option String) (vars : Variables)
    (w : World σ) : s.Uses w [] (choose s n input vars w).2 := by
  simp only [choose]
  split
  · exact .start
  · split
    · exact .start
    · exact Choice.judged_uses s vars _ _ w

theorem Services.call_fault (s : Services σ) (name : String) (parameters : Table Json.Value)
    (w : World σ) {id : String} : (s.call name parameters w).1 ≠ .error (.nodeNotFound id) := by
  unfold call
  split
  · simp
  · next function _ =>
    intro h
    dsimp only at h
    cases hv : (function parameters w.state).1 with
    | error message =>
      rw [hv] at h
      cases h
    | ok v =>
      rw [hv] at h
      cases h

structure Result.Fits (n : Node) (r : Result) : Prop where
  final : r.isFinal = n.kind.isFinal
  target : ∀ target, r.next = some target → ∃ e ∈ n.edges, e.target = target
  moves : r.next.isSome = true → r.waits = false
  reason : ∀ e, n.kind = .ending e → r.endReason = e.reason
  transfer : ∀ t, n.kind = .transfer t → r.endReason = "transfer"
  fault : ∀ id, r.fault ≠ some (.nodeNotFound id)

def Result.announced (r : Result) (session node : String) : List Event :=
  (r.note? "pending_message").toList.map (.said session node)

theorem Result.announced_quiet (r : Result) (session node : String) :
    ∀ event ∈ r.announced session node, (Entry.told event).isQuiet = true := by
  intro event he
  obtain ⟨text, -, rfl⟩ := List.mem_map.mp he
  rfl

namespace Run

theorem extractAll_uses (s : Services σ) (c : Conversation) (input : Option String)
    (w : World σ) : s.Uses w [] (extractAll s c input w).2 := by
  unfold extractAll
  split
  · exact .start
  · next input =>
    split
    · exact .start
    · have hask : s.Uses w [] (s.ask (Prompt.extractAll c.extracted input) none w).2 :=
        .ask .start _ none
      dsimp only
      split <;> exact hask

theorem extractEach_uses (s : Services σ) (node : String) (preamble : Option String)
    (input : String) (wanted : List Wanted) (extracted : Table Json.Value) (vars : Variables)
    (w : World σ) :
    s.Uses w [] (extractEach s node preamble input wanted extracted vars w).2.2 := by
  induction wanted generalizing extracted vars w with
  | nil => exact .start
  | cons x rest ih =>
    have hask : s.Uses w [] (s.ask (Prompt.extractOne preamble x input) none w).2 :=
      .ask .start _ none
    simp only [extractEach]
    split <;> exact hask.trans (ih _ _ _)

/-- A result that fails takes the session nowhere. -/
theorem fits_ofFault (n : Node) (r : Result) (hn : n.kind.isFinal = false)
    (hk : r.kind = .failed) (hnext : r.next = none) (hf : ∀ id, r.fault ≠ some (.nodeNotFound id)) :
    r.Fits n where
  final := by simp [Result.isFinal, hk, hn]
  target := by simp [hnext]
  moves := by simp [hnext]
  reason e he := by simp [he, Flow.NodeKind.isFinal] at hn
  transfer t ht := by simp [ht, Flow.NodeKind.isFinal] at hn
  fault := hf

/-- A result that goes where an edge was chosen. -/
theorem fits_chosen (n : Node) (r : Result) (hn : n.kind.isFinal = false)
    (hk : r.isFinal = false) (hnext : ∀ target, r.next = some target → ∃ e ∈ n.edges, e.target = target)
    (hw : r.next.isSome = true → r.waits = false) (hf : r.fault = none) : r.Fits n where
  final := by rw [hk, hn]
  target := hnext
  moves := hw
  reason e he := by simp [he, Flow.NodeKind.isFinal] at hn
  transfer t ht := by simp [ht, Flow.NodeKind.isFinal] at hn
  fault := by simp [hf]

theorem conversation_spec (s : Services σ) (around : Surroundings) (n : Node) (c : Conversation)
    (input : Option String) (vars : Variables) (w : World σ) (hn : n.kind.isFinal = false) :
    (conversation s around n c input vars w).1.Fits n ∧
      (conversation s around n c input vars w).1.announced around.session n.id = [] ∧
      s.Uses w [] (conversation s around n c input vars w).2.2 := by
  unfold conversation
  split
  · exact ⟨fits_chosen n _ hn rfl (by simp [Result.ofKind]) (by simp [Result.ofKind]) rfl, rfl,
      .start⟩
  · have hall := extractAll_uses s c input w
    dsimp only
    generalize extractAll s c input w = x at hall ⊢
    obtain ⟨extracted, w₁⟩ := x
    dsimp only at hall ⊢
    generalize vars.setAll (s.listing w₁.state extracted).entries n.id = vars
    have hask := hall.ask (Prompt.reply vars c input) (some (context around n))
    generalize s.ask (Prompt.reply vars c input) (some (context around n)) w₁ = x at hask ⊢
    obtain ⟨reply, w₂⟩ := x
    cases reply with
    | error e => exact ⟨fits_ofFault n _ hn rfl rfl (by simp [Result.ofFault]), rfl, hask⟩
    | ok reply =>
      refine ⟨fits_chosen n _ hn rfl ?_ ?_ rfl, rfl, hask.trans (choose_uses s n _ _ _)⟩
      · exact fun target => choose_target s n input _ w₂ target
      · simp

theorem returned_spec (s : Services σ) (n : Node) (c : Call) (notes : Table Json.Value)
    (v : Json.Value) (vars : Variables) (w : World σ) (hn : n.kind.isFinal = false) :
    (returned s n c notes v vars w).1.Fits n ∧
      (returned s n c notes v vars w).1.metadata.get? "pending_message" =
        notes.get? "pending_message" ∧
      s.Uses w [] (returned s n c notes v vars w).2.2 := by
  unfold returned
  refine ⟨fits_chosen n _ hn ?_ (fun target => choose_target s n none _ w target) (fun _ => rfl) rfl,
    ?_, choose_uses s n none _ w⟩
  · cases c.successMessage <;> rfl
  · exact Table.get?_insert notes "function_result" "pending_message" v

/-- The note of what is said before a call tells of it. -/
theorem announce_uses (s : Services σ) (around : Surroundings) (n : Node) (c : Call)
    (vars : Variables) (w : World σ) (r : Result)
    (noted : r.metadata.get? "pending_message" =
      (announce s around n c vars w).1.get? "pending_message") :
    s.Uses w (r.announced around.session n.id) (announce s around n c vars w).2 := by
  rw [Result.announced, Result.note?, noted]
  unfold announce
  cases c.pendingMessage with
  | none => exact .start
  | some pending => exact .tell .start (.said around.session n.id (vars.interpolate pending))

theorem call_spec (s : Services σ) (around : Surroundings) (n : Node) (c : Call)
    (vars : Variables) (w : World σ) (hn : n.kind.isFinal = false) :
    (call s around n c vars w).1.Fits n ∧
      s.Uses w ((call s around n c vars w).1.announced around.session n.id)
        (call s around n c vars w).2.2 := by
  unfold call
  dsimp only
  split
  · have hannounce := announce_uses s around n c vars w
    generalize announce s around n c vars w = x at hannounce ⊢
    split
    · next v w₁ hv =>
      obtain ⟨hfits, hnoted, huses⟩ := returned_spec s n c x.1 v vars w₁ hn
      have hcall := (hannounce _ hnoted).call c.function (parameters vars c)
      rw [hv] at hcall
      exact ⟨hfits, hcall.trans_silent huses⟩
    · next fault w₁ hfault =>
      refine ⟨fits_ofFault n _ hn rfl rfl ?_, ?_⟩
      · rintro id ⟨⟩
        exact s.call_fault _ _ _ (by rw [hfault])
      · have hcall := (hannounce { Result.ofFault fault with
          text := apology vars c fault, metadata := x.1 } rfl).call c.function (parameters vars c)
        rw [hfault] at hcall
        exact hcall
  · exact ⟨fits_ofFault n _ hn rfl rfl (by simp [Result.ofFault]), .start⟩

theorem extraction_spec (s : Services σ) (n : Node) (x : Extraction) (input : Option String)
    (vars : Variables) (w : World σ) (hn : n.kind.isFinal = false) :
    (extraction s n x input vars w).1.Fits n ∧
      (∀ session node, (extraction s n x input vars w).1.announced session node = []) ∧
      s.Uses w [] (extraction s n x input vars w).2.2 := by
  unfold extraction
  split
  · exact ⟨fits_chosen n _ hn rfl (by simp [Result.ofKind]) (by simp [Result.ofKind]) rfl,
      fun _ _ => rfl, .start⟩
  · next input _ =>
    have heach := extractEach_uses s n.id (x.prompt.map vars.interpolate) input x.wanted [] vars w
    exact ⟨fits_chosen n _ hn rfl (fun target => choose_target s n _ _ _ target) (fun _ => rfl) rfl,
      fun _ _ => rfl, heach.trans (choose_uses s n _ _ _)⟩

theorem execute_spec (s : Services σ) (around : Surroundings) (n : Node)
    (input : Option String) (vars : Variables) (w : World σ) :
    (execute s around n input vars w).1.Fits n ∧
      s.Uses w ((execute s around n input vars w).1.announced around.session n.id)
        (execute s around n input vars w).2.2 := by
  unfold execute
  cases hk : n.kind with
  | conversation c =>
    obtain ⟨hfits, hsilent, huses⟩ :=
      conversation_spec s around n c input vars w (by rw [hk]; rfl)
    exact ⟨hfits, hsilent ▸ huses⟩
  | call c => exact call_spec s around n c vars w (by rw [hk]; rfl)
  | split =>
    exact ⟨fits_chosen n _ (by rw [hk]; rfl) rfl (fun target => choose_target s n none vars w target)
      (fun _ => rfl) rfl, choose_uses s n none vars w⟩
  | ending e =>
    refine ⟨⟨by rw [hk]; rfl, by simp [Result.ofKind], by simp [Result.ofKind], ?_, ?_,
      by simp [Result.ofKind]⟩, .start⟩
    · intro e' he
      rw [hk] at he
      cases he
      rfl
    · intro t ht
      rw [hk] at ht
      cases ht
  | transfer t =>
    refine ⟨⟨by rw [hk]; rfl, by simp [Result.ofKind], by simp [Result.ofKind], ?_, ?_,
      by simp [Result.ofKind]⟩, .start⟩
    · intro e he
      rw [hk] at he
      cases he
    · exact fun _ _ => rfl
  | extraction x =>
    obtain ⟨hfits, hsilent, huses⟩ := extraction_spec s n x input vars w (by rw [hk]; rfl)
    exact ⟨hfits, hsilent around.session n.id ▸ huses⟩

end Run
end Dialogue
