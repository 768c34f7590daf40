import Dialogue.Service
/-!
What a journal tells about a session: the executions of nodes and the transitions between them.
Everything else that is journalled is quiet.
-/
namespace Dialogue

namespace Entry

def isRun : Entry → Bool
  | .ran .. => true
  | _ => false

def isMove : Entry → Bool
  | .told (.entered _ (some _) _) => true
  | _ => false

def isQuiet (x : Entry) : Bool := !x.isRun && !x.isMove

def result? : Entry → Option Result
  | .ran _ _ r => some r
  | _ => none

theorem isRun_of_isQuiet {x : Entry} (h : x.isQuiet = true) : x.isRun = false := by
  simp only [isQuiet, Bool.and_eq_true, Bool.not_eq_true'] at h
  exact h.1

theorem isMove_of_isQuiet {x : Entry} (h : x.isQuiet = true) : x.isMove = false := by
  simp only [isQuiet, Bool.and_eq_true, Bool.not_eq_true'] at h
  exact h.2

theorem result?_of_isQuiet {x : Entry} (h : x.isQuiet = true) : x.result? = none := by
  cases x with
  | ran => cases isRun_of_isQuiet h
  | asked | called | told => rfl

end Entry

namespace Journal

def executions (log : List Entry) : Nat := log.countP Entry.isRun

def transitions (log : List Entry) : Nat := log.countP Entry.isMove

def Quiet (log : List Entry) : Prop := ∀ x ∈ log, x.isQuiet = true

def first? (log : List Entry) : Option Result := log.findSome? Entry.result?

def results (log : List Entry) : List Result := log.filterMap Entry.result?

def stay (node : String) (log : List Entry) : List Result :=
  log.foldl (fun results x =>
    match x with
    | .told (.entered _ (some _) _) => []
    | .ran id _ r => if id = node then results ++ [r] else results
    | _ => results) []

@[simp] theorem executions_nil : executions [] = 0 := rfl

@[simp] theorem transitions_nil : transitions [] = 0 := rfl

@[simp] theorem executions_ran (node : String) (input : Option String) (r : Result)
    (log : List Entry) : executions (.ran node input r :: log) = executions log + 1 :=
  List.countP_cons_of_pos rfl

@[simp] theorem executions_told (event : Event) (log : List Entry) :
    executions (.told event :: log) = executions log :=
  List.countP_cons_of_neg (by simp [Entry.isRun])

@[simp] theorem transitions_ran (node : String) (input : Option String) (r : Result)
    (log : List Entry) : transitions (.ran node input r :: log) = transitions log :=
  List.countP_cons_of_neg (by simp [Entry.isMove])

@[simp] theorem transitions_entered (session source target : String) (log : List Entry) :
    transitions (.told (.entered session (some source) target) :: log) = transitions log + 1 :=
  List.countP_cons_of_pos rfl

theorem executions_append (log more : List Entry) :
    executions (log ++ more) = executions log + executions more := List.countP_append

theorem transitions_append (log more : List Entry) :
    transitions (log ++ more) = transitions log + transitions more := List.countP_append

theorem executions_quiet {log : List Entry} (h : Quiet log) : executions log = 0 := by
  rw [executions, List.countP_eq_zero]
  intro x hx
  simp [Entry.isRun_of_isQuiet (h x hx)]

theorem transitions_quiet {log : List Entry} (h : Quiet log) : transitions log = 0 := by
  rw [transitions, List.countP_eq_zero]
  intro x hx
  simp [Entry.isMove_of_isQuiet (h x hx)]

/-- Between two moves one node is executed. -/
theorem executions_ran_quiet {log more : List Entry} (hlog : Quiet log) (node : String)
    (input : Option String) (r : Result) (hmore : Quiet more) :
    executions (log ++ .ran node input r :: more) = 1 := by
  rw [executions_append, executions_ran, executions_quiet hlog, executions_quiet hmore]

theorem transitions_ran_quiet {log more : List Entry} (hlog : Quiet log) (node : String)
    (input : Option String) (r : Result) (hmore : Quiet more) :
    transitions (log ++ .ran node input r :: more) = 0 := by
  rw [transitions_append, transitions_ran, transitions_quiet hlog, transitions_quiet hmore]

theorem first?_quiet {log : List Entry} (h : Quiet log) : first? log = none := by
  rw [first?, List.findSome?_eq_none_iff]
  exact fun x hx => Entry.result?_of_isQuiet (h x hx)

theorem first?_ran {log : List Entry} (h : Quiet log) (node : String) (input : Option String)
    (r : Result) (more : List Entry) : first? (log ++ .ran node input r :: more) = some r := by
  have hlog := first?_quiet h
  rw [first?] at hlog
  rw [first?, List.findSome?_append, hlog]
  rfl

theorem results_append (log more : List Entry) :
    results (log ++ more) = results log ++ results more := List.filterMap_append

theorem results_quiet {log : List Entry} (h : Quiet log) : results log = [] := by
  rw [results, List.filterMap_eq_nil_iff]
  exact fun x hx => Entry.result?_of_isQuiet (h x hx)

theorem results_ran {log more : List Entry} (hlog : Quiet log) (node : String)
    (input : Option String) (r : Result) (hmore : Quiet more) :
    results (log ++ .ran node input r :: more) = [r] := by
  have hran : results (.ran node input r :: more) = r :: results more := rfl
  rw [results_append, hran, results_quiet hlog, results_quiet hmore, List.nil_append]

theorem stay_ran (node : String) (log : List Entry) (input : Option String) (r : Result) :
    stay node (log ++ [.ran node input r]) = stay node log ++ [r] := by
  simp [stay, List.foldl_append]

theorem stay_entered (node : String) (log : List Entry) (session source target : String) :
    stay node (log ++ [.told (.entered session (some source) target)]) = [] := by
  simp [stay, List.foldl_append]

theorem stay_quiet (node : String) (log : List Entry) {more : List Entry} (h : Quiet more) :
    stay node (log ++ more) = stay node log := by
  induction more generalizing log with
  | nil => rw [List.append_nil]
  | cons x more ih =>
    have hx := h x List.mem_cons_self
    rw [List.append_cons, ih _ fun y hy => h y (List.mem_cons_of_mem x hy)]
    rw [stay, List.foldl_append]
    -- an execution or a move would not be quiet
    match x with
    | .told (.entered _ (some _) _) | .ran .. => cases hx
    | .told (.entered _ none _) | .told (.said ..) | .told (.interrupted _) | .asked ..
    | .called .. => rfl

theorem stay_ran_quiet (node : String) (before : List Entry) {log more : List Entry}
    (input : Option String) (r : Result) (hlog : Quiet log) (hmore : Quiet more) :
    stay node (before ++ log ++ .ran node input r :: more) = stay node before ++ [r] := by
  rw [List.append_cons, stay_quiet node _ hmore, stay_ran, stay_quiet node before hlog]

theorem quiet_nil : Quiet [] := by simp [Quiet]

theorem quiet_single {x : Entry} (h : x.isQuiet = true) : Quiet [x] := by
  simpa [Quiet] using h

theorem quiet_append {log more : List Entry} (h : Quiet log) (h' : Quiet more) :
    Quiet (log ++ more) := by
  intro x hx
  rcases List.mem_append.mp hx with hx | hx
  · exact h x hx
  · exact h' x hx

end Journal

variable {σ : Type}

namespace World

def Still (w w' : World σ) : Prop :=
  ∃ log, w'.journal = w.journal ++ log ∧ Journal.Quiet log

theorem Still.refl (w : World σ) : w.Still w := ⟨[], by simp, Journal.quiet_nil⟩

theorem Still.trans {w w' w'' : World σ} (h : w.Still w') (h' : w'.Still w'') : w.Still w'' := by
  obtain ⟨log, e, hq⟩ := h
  obtain ⟨more, e', hq'⟩ := h'
  exact ⟨log ++ more, by rw [e', e, List.append_assoc], Journal.quiet_append hq hq'⟩

/-- The state of the services does not count. -/
theorem Still.of_journal {w w' : World σ} (h : w'.journal = w.journal) : w.Still w' :=
  ⟨[], by simp [h], Journal.quiet_nil⟩

end World

namespace Services

theorem ask_still (s : Services σ) (prompt : String) (context : Option Context) (w : World σ) :
    w.Still (s.ask prompt context w).2 :=
  ⟨[.asked prompt context], rfl, Journal.quiet_single rfl⟩

theorem call_still (s : Services σ) (name : String) (parameters : Table Json.Value) (w : World σ) :
    w.Still (s.call name parameters w).2 := by
  unfold call
  split
  · exact World.Still.refl w
  · exact ⟨[.called name parameters], rfl, Journal.quiet_single rfl⟩

theorem tell_still (s : Services σ) (event : Event) (w : World σ)
    (h : (Entry.told event).isQuiet = true) : w.Still (s.tell event w) :=
  ⟨[.told event], rfl, Journal.quiet_single h⟩

end Services
end Dialogue
