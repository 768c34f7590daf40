import Dialogue.Proofs.Acts
import Dialogue.Proofs.Batch
import Dialogue.Proofs.Replay
/-!
What a turn writes. A node names the variables that it may write, in the document; whatever the
services answer, no other variable changes. Main statement: so it is for every execution and for
every turn, and each write is logged on account of its node.
-/
namespace Dialogue

open Json (Value)
open Dialogue.Flow (Node Conversation Call Extraction Wanted)

variable {σ μ : Type}

theorem get?_replay_of_ne {base : Table Value} {log : List Change} {name : String}
    (others : ∀ c ∈ log, c.name ≠ name) : (replay base log).get? name = base.get? name := by
  have none : (log.filter fun c => c.name = name) = [] := by simpa using others
  rw [← get?_replay_filter, none]
  rfl

theorem replay_append (base : Table Value) (log more : List Change) :
    replay base (log ++ more) = replay (replay base log) more := List.foldl_append

namespace Variables

def Extends (allowed : Change → Prop) (vars vars' : Variables) : Prop :=
  ∃ more, vars'.history = vars.history ++ more ∧ vars'.values = replay vars.values more ∧
    ∀ c ∈ more, allowed c

namespace Extends
variable {allowed allowed' : Change → Prop} {vars vars' vars'' : Variables}

theorem refl (allowed : Change → Prop) (vars : Variables) : vars.Extends allowed vars :=
  ⟨[], (List.append_nil _).symm, rfl, nofun⟩

theorem trans (h : vars.Extends allowed vars') (h' : vars'.Extends allowed vars'') :
    vars.Extends allowed vars'' := by
  obtain ⟨log, history, values, all⟩ := h
  obtain ⟨more, history', values', all'⟩ := h'
  refine ⟨log ++ more, ?_, ?_, ?_⟩
  · rw [history', history, List.append_assoc]
  · rw [values', values, replay_append]
  · exact fun c hc => (List.mem_append.mp hc).elim (all c) (all' c)

theorem mono (h : vars.Extends allowed vars') (wider : ∀ c, allowed c → allowed' c) :
    vars.Extends allowed' vars' := by
  obtain ⟨log, history, values, all⟩ := h
  exact ⟨log, history, values, fun c hc => wider c (all c hc)⟩

/-- A name whose value has changed was written. -/
theorem changed (h : vars.Extends allowed vars') {name : String}
    (differs : vars'.get? name ≠ vars.get? name) : ∃ c, allowed c ∧ c.name = name := by
  obtain ⟨log, -, values, all⟩ := h
  refine Classical.byContradiction fun unwritten => differs ?_
  rw [get?, values]
  exact get?_replay_of_ne fun c hc same => unwritten ⟨c, all c hc, same⟩

/-- Where nothing is taken out, every name keeps a value. -/
theorem kept (h : vars.Extends allowed vars') (given : ∀ c, allowed c → c.new.isSome = true)
    {name : String} (there : (vars.get? name).isSome = true) :
    (vars'.get? name).isSome = true := by
  obtain ⟨log, -, values, all⟩ := h
  rw [get?] at there ⊢
  rw [values]
  clear values
  generalize vars.values = base at there ⊢
  induction log generalizing base with
  | nil => exact there
  | cons c rest ih =>
    refine ih (fun c' hc' => all c' (List.mem_cons_of_mem c hc')) (c.redo base) ?_
    rw [c.get?_redo]
    split
    · exact given c (all c List.mem_cons_self)
    · exact there

theorem setAll (entries : List (String × Value)) (source : String)
    (each : ∀ entry ∈ entries, ∀ old, allowed ⟨entry.1, old, some entry.2, source⟩)
    (vars : Variables) : vars.Extends allowed (vars.setAll entries source) := by
  induction entries generalizing vars with
  | nil => exact refl allowed vars
  | cons entry rest ih =>
    have first : vars.Extends allowed (vars.set entry.1 entry.2 source) :=
      ⟨[⟨entry.1, vars.get? entry.1, some entry.2, source⟩], rfl, rfl,
        fun c hc => List.mem_singleton.mp hc ▸ each entry List.mem_cons_self _⟩
    exact first.trans (ih (fun e he => each e (List.mem_cons_of_mem entry he)) _)

end Extends
end Variables

/-- The names that a node may write when it is executed with such an input, to such a result. -/
def Flow.Node.writable (n : Node) (input : Option String) (r : Result) : List String :=
  match n.kind with
  | .conversation c => if input.isSome then c.extracted else []
  | .extraction x => if (Text.spoken? input).isSome then x.wanted.map Wanted.name else []
  | .call c => if r.kind = .failed then [] else c.result.toList
  | .split | .ending _ | .transfer _ => []

/-- An entry that an execution of a node may leave in the log. Only a function may give null. -/
structure Flow.Node.Logs (n : Node) (input : Option String) (r : Result) (c : Change) : Prop where
  source : c.source = n.id
  name : c.name ∈ n.writable input r
  value : ∃ v, c.new = some v ∧ (v = .null → ∃ call, n.kind = .call call)

theorem Flow.Node.Logs.given {n : Node} {input : Option String} {r : Result} {c : Change}
    (h : n.Logs input r c) : c.new.isSome = true := by
  obtain ⟨v, new, -⟩ := h.value
  rw [new]
  rfl

structure Run.Writes (n : Node) (input : Option String) (vars : Variables) (x : Run σ)
    (entries : List (String × Value)) : Prop where
  vars : x.2.1 = vars.setAll entries n.id
  names : ∀ entry ∈ entries, entry.1 ∈ n.writable input x.1
  values : ∀ entry ∈ entries, entry.2 = .null → ∃ call, n.kind = .call call

theorem Run.Writes.extends {n : Node} {input : Option String} {vars : Variables} {x : Run σ}
    {entries : List (String × Value)} (h : Run.Writes n input vars x entries) :
    vars.Extends (n.Logs input x.1) x.2.1 := by
  rw [h.vars]
  refine .setAll entries n.id (fun entry he old => ?_) vars
  exact ⟨rfl, h.names entry he, entry.2, rfl, h.values entry he⟩

theorem Run.Writes.idle {n : Node} {input : Option String} {vars : Variables} {x : Run σ}
    {entries : List (String × Value)} (h : Run.Writes n input vars x entries)
    (nothing : n.writable input x.1 = []) : x.2.1 = vars := by
  have none : entries = [] := List.eq_nil_iff_forall_not_mem.mpr fun entry he =>
    absurd (h.names entry he) (nothing ▸ List.not_mem_nil)
  rw [h.vars, none]
  rfl

namespace Extraction

theorem coerce?_ne_null {type reply : String} {v : Value} (h : coerce? type reply = some v) :
    v ≠ .null := by
  rintro rfl
  unfold coerce? at h
  dsimp only at h
  split at h
  · cases h
  · split at h
    · split at h <;> cases h
    · split at h <;> cases h

end Extraction

namespace Run

/-- A conversation writes all that it reads off the words, in some order; it tells of it unless it
fails. -/
theorem conversation_vars (s : Services σ) (around : Surroundings) (n : Node) (c : Conversation)
    (input : Option String) (vars : Variables) (w : World σ) :
    let x := conversation s around n c input vars w
    let found := (extractAll s c input w).1
    ∃ listing : Listing found, x.2.1 = vars.setAll listing.entries n.id ∧
      x.1.extracted = if x.1.kind = .failed then [] else found := by
  dsimp only
  unfold conversation
  cases unheard : input.isNone && c.speaksFirst with
  | true =>
    rw [Bool.and_eq_true, Option.isNone_iff_eq_none] at unheard
    rw [unheard.1]
    exact ⟨.asListed [], rfl, rfl⟩
  | false =>
    generalize extractAll s c input w = found
    obtain ⟨found, w₁⟩ := found
    simp only [Bool.false_eq_true, if_false]
    refine ⟨s.listing w₁.state found, ?_⟩
    generalize s.ask _ _ w₁ = answer
    obtain ⟨reply, w₂⟩ := answer
    cases reply <;> exact ⟨rfl, rfl⟩

def answer? (s : Services σ) (around : Surroundings) (n : Node) (c : Call) (vars : Variables)
    (w : World σ) : Option Value :=
  if s.functions.contains c.function then
    (s.call c.function (parameters vars c) (announce s around n c vars w).2).1.toOption
  else none

def resultEntry (c : Call) (answer : Option Value) : List (String × Value) :=
  (c.result.bind fun name => answer.map fun v => (name, v)).toList

theorem call_vars (s : Services σ) (around : Surroundings) (n : Node) (c : Call) (vars : Variables)
    (w : World σ) :
    let x := call s around n c vars w
    let entries := resultEntry c (answer? s around n c vars w)
    x.2.1 = vars.setAll entries n.id ∧ x.1.extracted = entries ∧
      (x.1.kind = .failed ↔ answer? s around n c vars w = none) := by
  dsimp only
  unfold call answer? resultEntry
  cases s.functions.contains c.function with
  | false => cases c.result <;> exact ⟨rfl, rfl, iff_of_true rfl rfl⟩
  | true =>
    generalize announce s around n c vars w = announced
    simp only [if_true]
    generalize s.call c.function (parameters vars c) announced.2 = answer
    obtain ⟨answer, w₁⟩ := answer
    cases answer with
    | error fault => cases c.result <;> exact ⟨rfl, rfl, iff_of_true rfl rfl⟩
    | ok v =>
      have fine (text : Option String) :
          (if text.isSome then ResultKind.response else .goOn) ≠ .failed := by
        cases text <;> exact nofun
      unfold returned
      cases c.result <;> exact ⟨rfl, rfl, iff_of_false (fine _) nofun⟩

theorem execute_failed (s : Services σ) (around : Surroundings) (n : Node) (c : Call)
    (input : Option String) (vars : Variables) (w : World σ) (kind : n.kind = .call c) :
    (execute s around n input vars w).1.kind = .failed ↔ answer? s around n c vars w = none := by
  unfold execute
  rw [kind]
  exact (call_vars s around n c vars w).2.2

/-- What is found, asked for one by one, is written and gathered in the order in which it is
found. -/
theorem extractEach_vars (s : Services σ) (node : String) (preamble : Option String)
    (input : String) (wanted : List Wanted) (extracted : Table Value) (vars : Variables)
    (w : World σ) :
    ∃ found : List (String × Value),
      (∀ entry ∈ found, entry.1 ∈ wanted.map Wanted.name ∧ entry.2 ≠ .null) ∧
      (extractEach s node preamble input wanted extracted vars w).1 = extracted.overlay found ∧
      (extractEach s node preamble input wanted extracted vars w).2.1 = vars.setAll found node := by
  induction wanted generalizing extracted vars w with
  | nil => exact ⟨[], nofun, rfl, rfl⟩
  | cons first rest ih =>
    have later {found : List (String × Value)}
        (h : ∀ entry ∈ found, entry.1 ∈ rest.map Wanted.name ∧ entry.2 ≠ .null) :
        ∀ entry ∈ found, entry.1 ∈ (first :: rest).map Wanted.name ∧ entry.2 ≠ .null :=
      fun entry he => ⟨List.mem_cons_of_mem _ (h entry he).1, (h entry he).2⟩
    simp only [extractEach]
    generalize s.ask _ _ w = answer
    obtain ⟨reply, w₁⟩ := answer
    dsimp only
    cases value : reply.toOption.bind (Extraction.coerce? first.type) with
    | none =>
      obtain ⟨found, fit, gathered, written⟩ := ih extracted vars w₁
      exact ⟨found, later fit, gathered, written⟩
    | some v =>
      obtain ⟨found, fit, gathered, written⟩ :=
        ih (extracted.insert first.name v) (vars.set first.name v node) w₁
      obtain ⟨text, -, coerced⟩ := Option.bind_eq_some_iff.mp value
      refine ⟨(first.name, v) :: found, ?_, gathered, written⟩
      exact List.forall_mem_cons.mpr
        ⟨⟨List.mem_cons_self, Extraction.coerce?_ne_null coerced⟩, later fit⟩

theorem extraction_vars (s : Services σ) (n : Node) (x : Extraction) (input : Option String)
    (vars : Variables) (w : World σ) :
    ∃ found : List (String × Value),
      (∀ entry ∈ found, (Text.spoken? input).isSome = true ∧
        entry.1 ∈ x.wanted.map Wanted.name ∧ entry.2 ≠ .null) ∧
      (extraction s n x input vars w).1.extracted = Table.ofPairs found ∧
      (extraction s n x input vars w).2.1 = vars.setAll found n.id := by
  unfold extraction
  cases Text.spoken? input with
  | none => exact ⟨[], nofun, rfl, rfl⟩
  | some input =>
    obtain ⟨found, fit, gathered, written⟩ :=
      extractEach_vars s n.id (x.prompt.map vars.interpolate) input x.wanted [] vars w
    exact ⟨found, fun entry he => ⟨rfl, fit entry he⟩, gathered, written⟩

/-- Whatever the services answer, an execution writes only what its node may write. -/
theorem execute_writes (s : Services σ) (around : Surroundings) (n : Node)
    (input : Option String) (vars : Variables) (w : World σ) :
    ∃ entries, Writes n input vars (execute s around n input vars w) entries := by
  unfold execute
  cases kind : n.kind with
  | conversation c =>
    obtain ⟨listing, written, -⟩ := conversation_vars s around n c input vars w
    refine ⟨_, written, fun entry he => ?_, fun entry he null => ?_⟩
    · obtain ⟨heard, named, -⟩ := mem_extractAll (listing.perm.mem_iff.mp he)
      rw [Node.writable, kind]
      dsimp only
      rwa [if_pos heard]
    · exact absurd null (mem_extractAll (listing.perm.mem_iff.mp he)).2.2
  | call c =>
    obtain ⟨written, -, failed⟩ := call_vars s around n c vars w
    refine ⟨_, written, fun entry he => ?_, fun _ _ _ => ⟨c, kind⟩⟩
    obtain ⟨name, hname, hv⟩ := Option.bind_eq_some_iff.mp (Option.mem_toList.mp he)
    obtain ⟨v, answered, rfl⟩ := Option.map_eq_some_iff.mp hv
    have fine : (call s around n c vars w).1.kind ≠ .failed := fun h => by
      rw [failed.mp h] at answered
      cases answered
    rw [Node.writable, kind]
    dsimp only
    rw [if_neg fine, hname]
    exact List.mem_singleton_self name
  | split | ending e | transfer t => exact ⟨[], rfl, nofun, nofun⟩
  | extraction x =>
    obtain ⟨found, fit, -, written⟩ := extraction_vars s n x input vars w
    refine ⟨found, written, fun entry he => ?_, fun entry he null => ?_⟩
    · obtain ⟨heard, named, -⟩ := fit entry he
      rw [Node.writable, kind]
      dsimp only
      rwa [if_pos heard]
    · exact absurd null (fit entry he).2.2

end Run

def Flow.Accounts (f : Flow) (log : List Entry) (c : Change) : Prop :=
  ∃ n input r, f.node? n.id = some n ∧ .ran n.id input r ∈ log ∧ n.Logs input r c

theorem Flow.Accounts.mono {f : Flow} {log log' : List Entry} {c : Change}
    (h : f.Accounts log c) (more : log ⊆ log') : f.Accounts log' c := by
  obtain ⟨n, input, r, here, ran, logs⟩ := h
  exact ⟨n, input, r, here, more ran, logs⟩

theorem Flow.Accounts.given {f : Flow} {log : List Entry} {c : Change} (h : f.Accounts log c) :
    c.new.isSome = true := by
  obtain ⟨n, input, r, -, -, logs⟩ := h
  exact logs.given

namespace Stage

theorem say_vars (st : Stage σ) (node : String) (text : Option String) (sc : Scene σ) :
    (st.say node text sc).talk.vars = sc.talk.vars := by
  unfold say
  split <;> rfl

theorem executed_vars (st : Stage σ) (n : Node) (input : Option String) (sc : Scene σ) :
    sc.talk.vars.Extends (n.Logs input (st.executed n input sc).1)
      (st.executed n input sc).2.talk.vars := by
  obtain ⟨entries, writes⟩ := Run.execute_writes st.services
    ⟨st.session, st.flow.settings, sc.talk.recent st.config.window⟩ n input sc.talk.vars sc.world
  unfold executed
  dsimp only
  split <;> exact writes.extends

/-- Along a turn the executions account for all that is written. -/
theorem Acts.accounts {st : Stage σ} {sc sc' : Scene σ} (acts : st.Acts sc sc') :
    ∃ log, sc'.world.journal = sc.world.journal ++ log ∧
      sc.talk.vars.Extends (st.flow.Accounts log) sc'.talk.vars := by
  induction acts with
  | none => exact ⟨[], (List.append_nil _).symm, .refl _ _⟩
  | @execute sc' before n input here ih =>
    obtain ⟨log, journal, accounts⟩ := ih
    obtain ⟨more, -, journal'⟩ := (st.executed_spec n input sc').journal
    have here' : st.flow.node? n.id = some n := by rw [Flow.id_of_node? here, here]
    refine ⟨log ++ (more ++ [.ran n.id input (st.executed n input sc').1]), ?_, ?_⟩
    · rw [journal', journal, List.append_assoc, List.append_assoc]
    · refine (accounts.mono fun c hc => hc.mono (List.subset_append_left _ _)).trans
        ((st.executed_vars n input sc').mono fun c logs => ?_)
      exact ⟨n, input, _, here', by simp, logs⟩
  | @say sc' before node text ih =>
    obtain ⟨log, journal, accounts⟩ := ih
    obtain ⟨more, journal', -⟩ := st.say_still node sc' text
    refine ⟨log ++ more, by rw [journal', journal, List.append_assoc], ?_⟩
    rw [st.say_vars]
    exact accounts.mono fun c hc => hc.mono (List.subset_append_left _ _)
  | @move sc' before target ih =>
    obtain ⟨log, journal, accounts⟩ := ih
    refine ⟨log ++ [.told (.entered st.session (some sc'.talk.node) target)], ?_,
      accounts.mono fun c hc => hc.mono (List.subset_append_left _ _)⟩
    rw [move_journal, journal, List.append_assoc]
  | counted before ih => exact ih
  | closed before reason ih => exact ih

end Stage

namespace Engine

theorem turn_accounts (e : Engine σ) (s : Session μ) (w : World σ) (cue : Cue) :
    ∃ log, (e.turn s w cue).2.2.journal = w.journal ++ log ∧
      s.talk.vars.Extends (fun c => ∃ f, e.flow? s.flow = some f ∧ f.Accounts log c)
        (e.turn s w cue).2.1.talk.vars := by
  obtain same | ⟨f, sc, loaded, acts, same⟩ := e.turn_acts s w cue
  · rw [same]
    exact ⟨[], (List.append_nil _).symm, .refl _ _⟩
  · obtain ⟨start, opened, -⟩ := e.opening_still s w cue
    obtain ⟨log, journal, accounts⟩ := acts.accounts
    have unwritten : (e.opening s w cue).talk.vars = s.talk.vars := by cases cue <;> rfl
    rw [unwritten] at accounts
    rw [same]
    refine ⟨start ++ log, by rw [journal, opened, List.append_assoc], ?_⟩
    exact accounts.mono fun c hc => ⟨f, loaded, hc.mono (List.subset_append_right _ _)⟩

end Engine

/-- An execution writes only what its node may write, whatever the services answer: every other name
keeps its value, none is taken out, and each write is one entry in the log on account of the node. A
call may write if its function came back, and only a function gives null. A turn writes only what the
nodes that it executes may write. -/
theorem writes_declared (e : Engine σ) (s : Session μ) (cue : Cue) (w : World σ) :
    (∀ (around : Surroundings) (n : Node) (input : Option String) (vars : Variables) (w : World σ),
      let (r, vars', _) := execute e.services around n input vars w
      vars.Extends (n.Logs input r) vars' ∧
        (∀ name, vars'.get? name ≠ vars.get? name → name ∈ n.writable input r) ∧
        (∀ name, (vars.get? name).isSome = true → (vars'.get? name).isSome = true) ∧
        (n.writable input r = [] → vars' = vars) ∧
        ∀ c, n.kind = .call c →
          (r.kind = .failed ↔ Run.answer? e.services around n c vars w = none)) ∧
    let (_, s', w') := e.turn s w cue
    ∃ log, w'.journal = w.journal ++ log ∧
      s.talk.vars.Extends (fun c => ∃ f, e.flow? s.flow = some f ∧ f.Accounts log c) s'.talk.vars ∧
      (∀ name, s'.talk.vars.get? name ≠ s.talk.vars.get? name →
        ∃ f, e.flow? s.flow = some f ∧ ∃ n input r, f.node? n.id = some n ∧
          .ran n.id input r ∈ log ∧ name ∈ n.writable input r) ∧
      ∀ name, (s.talk.vars.get? name).isSome = true → (s'.talk.vars.get? name).isSome = true := by
  constructor
  · intro around n input vars w
    obtain ⟨entries, writes⟩ := Run.execute_writes e.services around n input vars w
    have failed (c : Call) (kind : n.kind = .call c) :=
      Run.execute_failed e.services around n c input vars w kind
    generalize execute e.services around n input vars w = x at writes failed ⊢
    obtain ⟨r, vars', w'⟩ := x
    have extended := writes.extends
    refine ⟨extended, fun name differs => ?_, fun name there => ?_, writes.idle, failed⟩
    · obtain ⟨c, logs, rfl⟩ := extended.changed differs
      exact logs.name
    · exact extended.kept (fun c logs => logs.given) there
  · obtain ⟨log, journal, accounts⟩ := e.turn_accounts s w cue
    generalize e.turn s w cue = x at journal accounts ⊢
    obtain ⟨answer, s', w'⟩ := x
    refine ⟨log, journal, accounts, fun name differs => ?_, fun name there => ?_⟩
    · obtain ⟨c, ⟨f, loaded, n, input, r, here, ran, logs⟩, rfl⟩ := accounts.changed differs
      exact ⟨f, loaded, n, input, r, here, ran, logs.name⟩
    · exact accounts.kept (fun c ⟨_, _, accounted⟩ => accounted.given) there

end Dialogue
