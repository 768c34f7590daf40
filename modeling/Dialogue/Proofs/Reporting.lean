import Dialogue.Proofs.Writing
/-!
What the result of a node tells of the variables. Main statement: it tells of all that has changed,
but for a conversation that fails after it has read variables off the user's words: these stay
written, and no result tells of them.
-/
namespace Dialogue

open Json (Value)
open Dialogue.Flow (Node Conversation Call Extraction Wanted)

variable {σ : Type}

namespace Table
variable {α : Type}

theorem ofPairs_eq_nil {pairs : List (String × α)} (none : ofPairs pairs = []) : pairs = [] := by
  refine List.eq_nil_iff_forall_not_mem.mpr fun entry he => ?_
  have listed : contains pairs.reverse entry.1 = true := by
    rw [contains_iff, List.map_reverse, List.mem_reverse]
    exact List.mem_map_of_mem he
  rw [contains, ← get?_ofPairs, none] at listed
  cases listed

end Table

theorem Variables.get?_setAll (vars : Variables) (entries : Table Value) (source name : String) :
    (vars.setAll entries source).get? name =
      (Table.get? entries.reverse name).or (vars.get? name) := by
  rw [get?, setAll_values, Table.get?_overlay]
  rfl

namespace Run

/-- What a conversation that has failed has read off the words and written before. -/
def unreported (s : Services σ) (n : Node) (input : Option String) (r : Result) (w : World σ) :
    Table Value :=
  match n.kind with
  | .conversation c => if r.kind = .failed then (extractAll s c input w).1 else []
  | _ => []

structure Reports (s : Services σ) (n : Node) (input : Option String) (vars : Variables)
    (w : World σ) (x : Run σ) : Prop where
  values : ∀ name, x.2.1.get? name =
    (((unreported s n input x.1 w).get? name).or (x.1.extracted.get? name)).or (vars.get? name)
  failed : x.1.kind = .failed → x.1.extracted = []
  idle : unreported s n input x.1 w = [] → x.1.extracted = [] → x.2.1 = vars

variable (s : Services σ) (around : Surroundings) (n : Node) (input : Option String)
  (vars : Variables) (w : World σ)

theorem conversation_reports (c : Conversation) (kind : n.kind = .conversation c) :
    Reports s n input vars w (conversation s around n c input vars w) := by
  obtain ⟨listing, written, told⟩ := conversation_vars s around n c input vars w
  have ordered := ordered_extractAll s c input w
  generalize conversation s around n c input vars w = x at written told ⊢
  have values (name : String) :
      x.2.1.get? name = ((extractAll s c input w).1.get? name).or (vars.get? name) := by
    rw [written, Variables.get?, Variables.setAll_values,
      Table.overlay_perm listing.perm (ordered.nodup_listing listing), Table.get?_overlay,
      Table.get?_reverse ordered.nodup]
    rfl
  -- Where nothing is found, nothing is listed.
  have idle (none : (extractAll s c input w).1 = []) : x.2.1 = vars := by
    rw [written, List.eq_nil_of_length_eq_zero (listing.perm.length_eq.trans (by rw [none]; rfl))]
    rfl
  have lost : unreported s n input x.1 w =
      if x.1.kind = .failed then (extractAll s c input w).1 else [] := by
    rw [unreported, kind]
  by_cases failed : x.1.kind = .failed
  · rw [if_pos failed] at told lost
    refine ⟨fun name => ?_, fun _ => told, fun none _ => idle (lost ▸ none)⟩
    rw [values, lost, told, Table.get?_nil, Option.or_none]
  · rw [if_neg failed] at told lost
    refine ⟨fun name => ?_, fun h => absurd h failed, fun _ none => idle (told ▸ none)⟩
    rw [values, lost, told, Table.get?_nil, Option.none_or]

/-- A node that is no conversation tells of all that it has written. -/
theorem Reports.of_told {x : Run σ} (lost : unreported s n input x.1 w = [])
    (entries : List (String × Value)) (written : x.2.1 = vars.setAll entries n.id)
    (told : x.1.extracted = Table.ofPairs entries)
    (failed : x.1.kind = .failed → x.1.extracted = []) : Reports s n input vars w x := by
  refine ⟨fun name => ?_, failed, fun _ none => ?_⟩
  · rw [written, Variables.get?_setAll, lost, told, Table.get?_ofPairs, Table.get?_nil,
      Option.none_or]
  · rw [written, Table.ofPairs_eq_nil (told.symm.trans none)]
    rfl

theorem extraction_unfailing (x : Extraction) :
    (extraction s n x input vars w).1.kind ≠ .failed := by
  unfold extraction
  split <;> exact nofun

theorem execute_reports : Reports s n input vars w (execute s around n input vars w) := by
  unfold execute
  cases kind : n.kind with
  | conversation c => exact conversation_reports s around n input vars w c kind
  | call c =>
    obtain ⟨written, told, failed⟩ := call_vars s around n c vars w
    refine .of_told s n input vars w (by rw [unreported, kind]) _ written ?_ fun h => ?_
    · rw [told, resultEntry]
      cases c.result <;> cases answer? s around n c vars w <;> rfl
    · rw [told, failed.mp h, resultEntry]
      cases c.result <;> rfl
  | extraction x =>
    obtain ⟨found, -, told, written⟩ := extraction_vars s n x input vars w
    exact .of_told s n input vars w (by rw [unreported, kind]) _ written told
      fun h => absurd h (extraction_unfailing s n input vars w x)
  | split | ending e | transfer t =>
    exact .of_told s n input vars w (by rw [unreported, kind]) [] rfl rfl nofun

theorem failed_of_unreported {r : Result} {name : String} {v : Value}
    (lost : (unreported s n input r w).get? name = some v) : r.kind = .failed := by
  unfold unreported at lost
  split at lost
  · split at lost
    · assumption
    · cases lost
  · cases lost

end Run

/-- The variables after an execution are those before, overlaid with what its result tells of and,
where a conversation has failed, with what it has read off the words. So they are overlaid with what
the result tells of, if and only if a conversation that has failed has read off nothing new. -/
theorem changes_reported_iff (s : Services σ) (around : Surroundings) (n : Node)
    (input : Option String) (vars : Variables) (w : World σ) :
    let (r, vars', _) := execute s around n input vars w
    let lost := Run.unreported s n input r w
    (∀ name, vars'.get? name =
      ((lost.get? name).or (r.extracted.get? name)).or (vars.get? name)) ∧
    (r.kind = .failed → r.extracted = []) ∧
    (lost = [] → r.extracted = [] → vars' = vars) ∧
    ((∀ name, vars'.get? name = (r.extracted.get? name).or (vars.get? name)) ↔
      ∀ name v, lost.get? name = some v → vars.get? name = some v) := by
  have reports := Run.execute_reports s around n input vars w
  generalize execute s around n input vars w = x at reports ⊢
  obtain ⟨r, vars', w'⟩ := x
  obtain ⟨values, failed, idle⟩ := reports
  refine ⟨values, failed, idle, fun told name v lost => ?_, fun known name => ?_⟩
  · have silent := failed (Run.failed_of_unreported s n input w lost)
    have after := values name
    rw [told name, silent, lost] at after
    exact after
  · rw [values name]
    cases lost : (Run.unreported s n input r w).get? name with
    | none => rw [Option.none_or]
    | some v =>
      rw [failed (Run.failed_of_unreported s n input w lost), known name v lost]
      rfl

def speechless : Services Unit where
  generate := fun _ context state =>
    (if context.isNone then .ok "\x7b\"name\": \"Sam\"\x7d" else .error "down", state)
  functions := []
  transcriber := none
  observers := []

def greeting : Node :=
  .ofKind "greeting" (.conversation { Conversation.standard with extracted := ["name"] })

/-- A conversation fails after it has written a variable, and its result tells of none. -/
theorem greeting_conceals :
    let (r, vars', _) := execute speechless ⟨"s", .standard, []⟩ greeting (some "My name is Sam")
      .empty ⟨(), []⟩
    r.kind = .failed ∧ r.extracted = [] ∧ vars'.isPresent "name" = true ∧
      ¬ ∀ name, vars'.get? name = (r.extracted.get? name).or (Variables.empty.get? name) := by
  have failed : (execute speechless ⟨"s", .standard, []⟩ greeting (some "My name is Sam") .empty
      ⟨(), []⟩).1 = .ofFault (.generation "down") := by rfl
  have written : (execute speechless ⟨"s", .standard, []⟩ greeting (some "My name is Sam") .empty
      ⟨(), []⟩).2.1.isPresent "name" = true := by decide +kernel
  generalize execute speechless _ _ _ _ _ = x at failed written ⊢
  obtain ⟨r, vars', w'⟩ := x
  dsimp only at failed written ⊢
  subst failed
  refine ⟨rfl, rfl, written, fun told => ?_⟩
  rw [Variables.isPresent, told "name"] at written
  cases written

end Dialogue
