import Dialogue.Variables
/-!
The log of the variables. Main statement: after any writes, the log replayed on what the variables
started from gives the variables again, each entry tells what it has replaced, and the entries of one
name account for that name alone.
-/
namespace Dialogue

open Json (Value)

inductive Write where
  | set (name : String) (value : Value) (source : String)
  | delete (name : String)
  | clear

def Write.isClear : Write → Bool
  | clear => true
  | _ => false

def Change.redo (c : Change) (table : Table Value) : Table Value :=
  match c.new with
  | some value => table.insert c.name value
  | none => table.erase c.name

def replay (base : Table Value) (log : List Change) : Table Value :=
  log.foldl (fun table c => c.redo table) base

theorem Change.get?_redo (c : Change) (table : Table Value) (name : String) :
    (c.redo table).get? name = if name = c.name then c.new else table.get? name := by
  unfold redo
  cases c.new with
  | none => exact Table.get?_erase table c.name name
  | some value => exact Table.get?_insert table c.name name value

theorem replay_concat (base : Table Value) (log : List Change) (c : Change) :
    replay base (log ++ [c]) = c.redo (replay base log) := by
  rw [replay, List.foldl_append]
  rfl

/-- What the entries of other names do is nothing to a name. -/
theorem get?_replay_filter (base : Table Value) (log : List Change) (name : String) :
    (replay base (log.filter fun c => c.name = name)).get? name =
      (replay base log).get? name := by
  suffices h : ∀ table, table.get? name = base.get? name →
      (replay table (log.filter fun c => c.name = name)).get? name =
        (replay base log).get? name from h base rfl
  induction log generalizing base with
  | nil => exact fun table same => same
  | cons c rest ih =>
    intro table same
    by_cases own : c.name = name
    · rw [List.filter_cons_of_pos (by simpa using own)]
      refine ih (c.redo base) (c.redo table) ?_
      rw [c.get?_redo, c.get?_redo, same]
    · rw [List.filter_cons_of_neg (by simpa using own)]
      refine ih (c.redo base) table ?_
      rw [c.get?_redo, if_neg (Ne.symm own), same]

namespace Variables

def write (vars : Variables) : Write → Variables
  | .set name value source => vars.set name value source
  | .delete name => vars.delete name
  | .clear => empty

def writeAll (vars : Variables) (writes : List Write) : Variables := writes.foldl write vars

theorem writeAll_append (vars : Variables) (writes more : List Write) :
    vars.writeAll (writes ++ more) = (vars.writeAll writes).writeAll more := List.foldl_append

structure Logged (base : Table Value) (vars : Variables) : Prop where
  values : replay base vars.history = vars.values
  olds : ∀ before c after, vars.history = before ++ c :: after →
    c.old = (replay base before).get? c.name

theorem delete_history (vars : Variables) (name : String) :
    (vars.delete name).history =
      vars.history ++ (vars.get? name).toList.map fun old => ⟨name, some old, none, "delete"⟩ := by
  unfold delete
  cases vars.get? name with
  | none => exact (List.append_nil _).symm
  | some old => rfl

namespace Logged
variable {base : Table Value} {vars : Variables}

theorem initial (values : Table Value) : Logged values (ofInitial values) where
  values := rfl
  olds before c after h := absurd h (by simp [ofInitial])

/-- One more entry, which tells what it has replaced. -/
theorem concat (h : vars.Logged base) {vars' : Variables} (c : Change)
    (history : vars'.history = vars.history ++ [c]) (values : vars'.values = c.redo vars.values)
    (old : c.old = vars.get? c.name) : vars'.Logged base where
  values := by rw [history, replay_concat, h.values, values]
  olds before c' after split := by
    rw [history] at split
    obtain rfl | ⟨after', last, rfl⟩ := List.eq_nil_or_concat after
    · obtain ⟨rfl, same⟩ := List.append_inj' split rfl
      obtain rfl : c = c' := List.singleton_inj.mp same
      rw [h.values]
      exact old
    · rw [List.concat_eq_append, ← List.cons_append, ← List.append_assoc] at split
      exact h.olds before c' after' (List.append_inj' split rfl).1

theorem set (h : vars.Logged base) (name : String) (value : Value) (source : String) :
    (vars.set name value source).Logged base :=
  h.concat ⟨name, vars.get? name, some value, source⟩ rfl rfl rfl

theorem delete (h : vars.Logged base) (name : String) : (vars.delete name).Logged base := by
  unfold Variables.delete
  cases listed : vars.get? name with
  | none => exact h
  | some old => exact h.concat ⟨name, some old, none, "delete"⟩ rfl rfl listed.symm

/-- A write keeps the account; clearing opens a new one. -/
theorem write (h : vars.Logged base) (w : Write) :
    (vars.write w).Logged (if w.isClear then [] else base) := by
  cases w with
  | set name value source => exact h.set name value source
  | delete name => exact h.delete name
  | clear => exact initial []

theorem writeAll (h : vars.Logged base) (writes : List Write) :
    (vars.writeAll writes).Logged (if writes.any Write.isClear then [] else base) := by
  induction writes generalizing vars base with
  | nil => exact h
  | cons w rest ih =>
    -- once cleared, what comes after cannot bring the first base back
    have hbase : (if rest.any Write.isClear then [] else if w.isClear then [] else base) =
        if (w :: rest).any Write.isClear then [] else base := by
      rw [List.any_cons]
      cases w.isClear <;> cases rest.any Write.isClear <;> rfl
    rw [← hbase]
    exact ih (h.write w)

end Logged

theorem write_history (vars : Variables) {w : Write} (kept : w.isClear = false) :
    vars.history <+: (vars.write w).history := by
  cases w with
  | set name value source => exact List.prefix_append _ _
  | delete name =>
    rw [write, delete_history]
    exact List.prefix_append _ _
  | clear => cases kept

/-- As long as nothing is cleared, the log only grows, at its end. -/
theorem writeAll_history (vars : Variables) {writes : List Write}
    (kept : writes.any Write.isClear = false) : vars.history <+: (vars.writeAll writes).history := by
  induction writes generalizing vars with
  | nil => exact List.prefix_rfl
  | cons w rest ih =>
    rw [List.any_cons, Bool.or_eq_false_iff] at kept
    exact (vars.write_history kept.1).trans (ih (vars.write w) kept.2)

/-- After any writes the log accounts for the variables, from what they started with or, once they
were cleared, from nothing. A value that is set adds one entry, a name that is taken out adds one if
it was there, and until the next clearing what has been logged stays. The entries of a name alone
account for its value. -/
theorem log_accounts (initial : Table Value) (writes : List Write) :
    let vars := (ofInitial initial).writeAll writes
    let base := if writes.any Write.isClear then [] else initial
    vars.Logged base ∧
      (∀ name value source, (vars.set name value source).history =
        vars.history ++ [⟨name, vars.get? name, some value, source⟩]) ∧
      (∀ name, (vars.delete name).history =
        vars.history ++ (vars.get? name).toList.map fun old => ⟨name, some old, none, "delete"⟩) ∧
      (∀ more, more.any Write.isClear = false →
        vars.history <+: ((ofInitial initial).writeAll (writes ++ more)).history) ∧
      ∀ name, vars.changesOf name = (vars.history.filter fun c => c.name = name) ∧
        (replay base (vars.changesOf name)).get? name = vars.get? name := by
  intro vars base
  have logged : vars.Logged base := (Logged.initial initial).writeAll writes
  refine ⟨logged, fun _ _ _ => rfl, vars.delete_history, fun more kept => ?_, fun name => ⟨rfl, ?_⟩⟩
  · rw [writeAll_append]
    exact vars.writeAll_history kept
  · rw [changesOf, get?_replay_filter, logged.values]
    rfl

end Variables
end Dialogue
