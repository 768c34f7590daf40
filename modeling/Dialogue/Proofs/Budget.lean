import Dialogue.Proofs.Lifecycle
/-!
The failures of a node since the session has come to it. Main statement: when a failure takes the
session from the node, they have reached the limit; they were in a row exactly when the node did
not succeed in between.
-/
namespace Dialogue

open Journal (Quiet stay)

variable {σ μ : Type}

def Departs (log : List Entry) (source target : String) (before : List Entry) : Prop :=
  ∃ id after, log = before ++ .told (.entered id (some source) target) :: after

theorem Departs.of_append {log more before : List Entry} {source target : String}
    (h : Departs (log ++ more) source target before) (hmore : ∀ x ∈ more, x.isMove = false) :
    Departs log source target before := by
  obtain ⟨id, after, e⟩ := h
  rcases List.append_eq_append_iff.mp e with ⟨rest, -, hrest⟩ | ⟨rest, hrest, hafter⟩
  · have hmem : Entry.told (.entered id (some source) target) ∈ more := by simp [hrest]
    cases hmore _ hmem
  · cases rest with
    | nil =>
      have hmem : Entry.told (.entered id (some source) target) ∈ more := by
        rw [List.nil_append] at hafter
        simp [← hafter]
      cases hmore _ hmem
    | cons x rest =>
      obtain ⟨rfl, -⟩ := List.cons.inj hafter
      exact ⟨id, rest, hrest⟩

/-- The last departure is the last move. -/
theorem Departs.of_concat {log before : List Entry} {session source target source' target' : String}
    (h : Departs (log ++ [.told (.entered session (some source') target')]) source target before) :
    (before = log ∧ source = source' ∧ target = target') ∨ Departs log source target before := by
  obtain ⟨id, after, e⟩ := h
  rcases List.append_eq_append_iff.mp e with ⟨rest, hbefore, hrest⟩ | ⟨rest, hrest, hafter⟩
  · cases rest with
    | nil =>
      rw [List.nil_append] at hrest
      obtain ⟨hx, -⟩ := List.cons.inj hrest
      cases hx
      exact .inl ⟨by simpa using hbefore, rfl, rfl⟩
    | cons x rest => simp at hrest
  · cases rest with
    | nil =>
      rw [List.nil_append] at hafter
      obtain ⟨hx, -⟩ := List.cons.inj hafter
      cases hx
      exact .inl ⟨by simpa using hrest.symm, rfl, rfl⟩
    | cons x rest =>
      obtain ⟨rfl, -⟩ := List.cons.inj hafter
      exact .inr ⟨id, rest, hrest⟩

theorem Departs.of_ran {log quiet more before : List Entry} {id source target : String}
    {input : Option String} {r : Result}
    (h : Departs (log ++ quiet ++ .ran id input r :: more) source target before)
    (hq : Quiet quiet) (hmore : Quiet more) : Departs log source target before := by
  rw [List.append_assoc] at h
  refine h.of_append fun x hx => ?_
  rcases List.mem_append.mp hx with hx | hx
  · exact Entry.isMove_of_isQuiet (hq x hx)
  · rcases List.mem_cons.mp hx with rfl | hx
    · rfl
    · exact Entry.isMove_of_isQuiet (hmore x hx)

def failedLast (node : String) (log : List Entry) : Bool :=
  (stay node log).getLast?.any Result.fails

def Spent (f : Flow) (node : String) (log : List Entry) : Prop :=
  failedLast node log = true →
    (stay node log).countP Result.fails = max 1 f.settings.maxRetries

theorem Spent.of_stay {f : Flow} {node : String} {log : List Entry} {stayed : List Result}
    {r : Result} (hstay : stay node log = stayed ++ [r])
    (h : r.fails = true → stayed.countP Result.fails + 1 = max 1 f.settings.maxRetries) :
    Spent f node log := by
  intro hfails
  rw [failedLast, hstay, List.getLast?_concat, Option.any_some] at hfails
  rw [hstay, List.countP_append, ← h hfails, List.countP_singleton, if_pos hfails]

/-- The failures on a node have been counted since the session has come to it. -/
structure Tally (f : Flow) (t : Talk) (log : List Entry) : Prop where
  departs : ∀ source target before, Departs log source target before → Spent f source before
  count : t.complete = false → t.retries = (stay t.node log).countP Result.fails
  ends : t.ended = some "max_retries" → Spent f t.node log

/-- The counter never passes the limit. -/
theorem Lawful.spent {f : Flow} {t : Talk} (h : Lawful f t) (live : t.complete = false)
    (spent : f.settings.maxRetries ≤ t.retries + 1) :
    t.retries + 1 = max 1 f.settings.maxRetries := by
  rcases h.retries live with hr | hr
  · omega
  · omega

namespace Tally

theorem created {e : Engine σ} {f : Flow} {flow id : String} {initial : Table Json.Value}
    {s : Session μ} (loaded : e.flow? flow = some f) (h : e.create flow id initial = .ok s) :
    Tally f s.talk [] := by
  simp only [Engine.create, loaded, Except.ok.injEq] at h
  subst h
  refine ⟨?_, fun _ => rfl, by simp⟩
  rintro source target before ⟨id, after, e⟩
  simp at e

/-- Words that are said and questions that are asked do not count. -/
theorem of_quiet {f : Flow} {t t' : Talk} {log more : List Entry} (h : Tally f t log)
    (quiet : Quiet more) (node : t'.node = t.node) (retries : t'.retries = t.retries)
    (complete : t'.complete = t.complete) (ended : t'.ended = t.ended) :
    Tally f t' (log ++ more) := by
  refine ⟨?_, ?_, ?_⟩
  · intro source target before hd
    exact h.departs source target before
      (hd.of_append fun x hx => Entry.isMove_of_isQuiet (quiet x hx))
  · rw [complete, retries, node, Journal.stay_quiet _ _ quiet]
    exact h.count
  · rw [ended, node, Spent, failedLast, Journal.stay_quiet _ _ quiet]
    exact h.ends

theorem step_goOn {st : Stage σ} {log : List Entry} {input : Option String} {sc sc' : Scene σ}
    (h : Tally st.flow sc.talk (log ++ sc.world.journal)) (lawful : Lawful st.flow sc.talk)
    (live : sc.talk.complete = false) (hs : st.step input sc = .goOn sc') :
    Tally st.flow sc'.talk (log ++ sc'.world.journal) := by
  obtain ⟨n, r, more, hmore, hran, hleave, -, retries, -, ended⟩ := st.step_goOn hs
  obtain ⟨quiet, hquiet, e⟩ := hran.journal
  rw [Flow.id_of_node? hran.here] at e
  have hjournal : log ++ sc'.world.journal =
      log ++ sc.world.journal ++ quiet ++ .ran sc.talk.node input r :: more ++
        [.told (.entered st.session (some sc.talk.node) sc'.talk.node)] := by
    rw [e]
    simp
  rw [hjournal]
  refine ⟨?_, ?_, ?_⟩
  · intro source target before hd
    rcases hd.of_concat with ⟨rfl, rfl, rfl⟩ | hd
    · refine .of_stay (Journal.stay_ran_quiet _ _ input r hquiet hmore) fun hfails => ?_
      cases hleave with
      | forced _ spent => rw [← h.count live, lawful.spent live spent]
      | chosen fails => rw [hfails] at fails; cases fails
    · exact h.departs source target before (hd.of_ran hquiet hmore)
  · intro _
    rw [retries, Journal.stay_entered]
    rfl
  · intro hended
    rw [ended, lawful.ended_none live] at hended
    cases hended

theorem step_done {st : Stage σ} {log : List Entry} {input : Option String} {sc sc' : Scene σ}
    {r' : Result} (h : Tally st.flow sc.talk (log ++ sc.world.journal))
    (lawful : Lawful st.flow sc.talk) (live : sc.talk.complete = false)
    (hs : st.step input sc = .done r' sc') :
    Tally st.flow sc'.talk (log ++ sc'.world.journal) := by
  obtain ⟨n, hn⟩ := Option.isSome_iff_exists.mp lawful.onNode
  obtain ⟨r, more, hmore, hran, node, hstop⟩ := st.step_done hn hs
  obtain ⟨quiet, hquiet, e⟩ := hran.journal
  rw [Flow.id_of_node? hn] at e
  have hjournal : log ++ sc'.world.journal =
      log ++ sc.world.journal ++ quiet ++ .ran sc.talk.node input r :: more := by
    rw [e]
    simp
  have hstay := Journal.stay_ran_quiet sc.talk.node (log ++ sc.world.journal) input r hquiet hmore
  rw [hjournal]
  refine ⟨fun source target before hd => h.departs source target before (hd.of_ran hquiet hmore),
    ?_, ?_⟩
  · intro live'
    rw [node, hstay, List.countP_append, ← h.count live, List.countP_singleton]
    cases hstop with
    | concluded _ _ complete => rw [live'] at complete; cases complete
    | retried fails _ retries => rw [retries, if_pos fails]
    | spent _ _ _ _ complete => rw [live'] at complete; cases complete
    | stayed fails _ _ retries => rw [retries, if_neg (by simp [fails]), Nat.add_zero]
  · intro hended
    rw [node]
    refine .of_stay hstay fun hfails => ?_
    cases hstop with
    | concluded final => simp [Result.fails, final] at hfails
    | spent _ spent => rw [← h.count live, lawful.spent live spent]
    | retried _ _ _ _ ended | stayed _ _ _ _ _ ended =>
      rw [ended, lawful.ended_none live] at hended
      cases hended

theorem drive (st : Stage σ) {log : List Entry} {sc : Scene σ}
    (h : Tally st.flow sc.talk (log ++ sc.world.journal)) (lawful : Lawful st.flow sc.talk)
    (live : sc.talk.complete = false) (left : Nat) (input : Option String) :
    Tally st.flow (st.drive left input sc).2.talk
      (log ++ (st.drive left input sc).2.world.journal) := by
  refine st.drive_induct
    (P := fun sc => Tally st.flow sc.talk (log ++ sc.world.journal) ∧ Lawful st.flow sc.talk ∧
      sc.talk.complete = false)
    (Q := fun _ sc => Tally st.flow sc.talk (log ++ sc.world.journal)) ?_ ?_ ?_ left input sc
    ⟨h, lawful, live⟩
  · rintro input sc r sc' ⟨h, lawful, live⟩ hs
    exact h.step_done lawful live hs
  · rintro input sc sc' ⟨h, lawful, live⟩ hs
    exact ⟨h.step_goOn lawful live hs, lawful.step_goOn live hs⟩
  · rintro input sc sc' ⟨h, lawful, live⟩ hs
    have h' := h.step_goOn lawful live hs
    obtain ⟨quiet, e, hquiet⟩ := st.handOff_still sc'
      (.continuationLimit st.config.continuations) "continuation_limit"
    rw [Stage.proceed, e, ← List.append_assoc]
    refine ⟨?_, by simp, by simp⟩
    intro source target before hd
    exact h'.departs source target before
      (hd.of_append fun x hx => Entry.isMove_of_isQuiet (hquiet x hx))

theorem concat {f : Flow} {s : Session μ} {log : List Entry} {o : Occasion σ}
    (h : Tally f s.talk log) (lawful : Lawful f s.talk) (hc : Comes o f s) :
    Tally f (o.after s).talk (log ++ o.log s) := by
  cases hc with
  | closed complete after log fault => rwa [after, log, List.append_nil]
  | idle frame turns talk quiet fault =>
    rw [talk]
    exact h.of_quiet quiet rfl rfl rfl rfl
  | turn live cue sc opens result talk log =>
    rw [talk, log]
    exact drive (o.engine.stage f s)
      (h.of_quiet opens.quiet opens.node opens.retries opens.complete opens.ended)
      (lawful.of_opens opens) (opens.complete.trans live) o.engine.config.continuations cue.input

end Tally

theorem Session.run_tally {s : Session μ} {f : Flow} (lawful : Lawful f s.talk)
    (tally : Tally f s.talk []) (os : List (Occasion σ))
    (kept : ∀ o ∈ os, o.engine.flow? s.flow = some f) :
    Tally f (s.run os).talk (s.log os) := by
  refine (Session.run_induct (P := fun os => Lawful f (s.run os).talk ∧
    Tally f (s.run os).talk (s.log os)) ⟨lawful, tally⟩ ?_ os kept).2
  rintro before o ⟨h, htally⟩ hc
  rw [s.run_concat, s.log_concat]
  exact ⟨(h.after o hc).1, htally.concat h hc⟩

def failInARow (count : Nat) (results : List Result) : Bool :=
  count ≤ results.length && (results.drop (results.length - count)).all Result.fails

def neverRecovers (results : List Result) : Bool :=
  (results.dropWhile fun r => !r.fails).all Result.fails

theorem failInARow_iff (results : List Result) :
    failInARow (results.countP Result.fails) results = true ↔ neverRecovers results = true := by
  simp only [failInARow, neverRecovers, Bool.and_eq_true, decide_eq_true_eq, List.all_eq_true]
  constructor
  · rintro ⟨hle, hall⟩
    have hsplit := List.take_append_drop (results.length - results.countP Result.fails) results
    have hcount := congrArg (List.countP Result.fails) hsplit
    rw [List.countP_append, List.countP_eq_length.mpr hall, List.length_drop,
      Nat.sub_sub_self hle, Nat.add_eq_right, List.countP_eq_zero] at hcount
    intro r hr
    rw [← hsplit, List.dropWhile_append_of_pos (by simpa using hcount)] at hr
    exact hall r (List.dropWhile_subset _ hr)
  · intro hall
    have htake : (results.takeWhile fun r => !r.fails).countP Result.fails = 0 := by
      rw [List.countP_eq_zero]
      intro r hr
      simpa using List.all_eq_true.mp List.all_takeWhile r hr
    obtain ⟨first, rest, rfl, hfirst, hrest⟩ : ∃ first rest, results = first ++ rest ∧
        first.countP Result.fails = 0 ∧ ∀ r ∈ rest, r.fails = true :=
      ⟨_, _, List.takeWhile_append_dropWhile.symm, htake, hall⟩
    rw [List.countP_append, hfirst, Nat.zero_add, List.countP_eq_length.mpr hrest]
    refine ⟨by simp, ?_⟩
    rw [List.length_append, Nat.add_sub_cancel, List.drop_left]
    exact hrest

/-- What has been journalled by the time a failed execution takes the session from a node: the
session goes on to another node, or it is over. -/
inductive Exhausts (t : Talk) (log : List Entry) (node : String) (before : List Entry) : Prop where
  | departs (target : String) (departs : Departs log node target before)
      (failed : failedLast node before = true)
  | ends (ended : t.ended = some "max_retries") (here : t.node = node) (all : before = log)
      (failed : failedLast node before = true)

/-- Whenever a failure takes a session from a node, the failures since it has come there have
reached the limit. They were the last executions of the node exactly when the node has not
succeeded since the first of them. -/
theorem exhausted_in_a_row_iff (e : Engine σ) (f : Flow) (flow id : String)
    (initial : Table Json.Value) (s : Session μ) (os : List (Occasion σ)) (node : String)
    (before : List Entry) (loaded : e.flow? flow = some f)
    (created : e.create flow id initial = .ok s)
    (kept : ∀ o ∈ os, o.engine.flow? f.id = some f)
    (exhausts : Exhausts (s.run os).talk (s.log os) node before) :
    (stay node before).countP Result.fails = max 1 f.settings.maxRetries ∧
    (failInARow (max 1 f.settings.maxRetries) (stay node before) = true ↔
      neverRecovers (stay node before) = true) := by
  rw [← e.create_flow loaded created] at kept
  have tally := Session.run_tally (.created loaded created) (.created loaded created) os kept
  have spent : Spent f node before := by
    cases exhausts with
    | departs target departs => exact tally.departs node target before departs
    | ends ended here all =>
      rw [← here, all]
      exact tally.ends ended
  have failed : failedLast node before = true := by
    cases exhausts with
    | departs _ _ failed | ends _ _ _ failed => exact failed
  have count := spent failed
  refine ⟨count, ?_⟩
  rw [← count]
  exact failInARow_iff _

theorem desk_exhausted :
    let os := [.error "down", .error "down"].map deskTurn
    Exhausts (deskSession.run os).talk (deskSession.log os) "desk" (deskSession.log os) ∧
      failInARow 2 (stay "desk" (deskSession.log os)) = true := by
  intro os
  have hrun : (deskSession.run os).talk.ended = some "max_retries" ∧
      (deskSession.run os).talk.node = "desk" ∧
      failedLast "desk" (deskSession.log os) = true ∧
      neverRecovers (stay "desk" (deskSession.log os)) = true := by decide +kernel
  obtain ⟨hended, hnode, hfailed, hnever⟩ := hrun
  have exhausts := Exhausts.ends hended hnode rfl hfailed
  obtain ⟨-, hiff⟩ := exhausted_in_a_row_iff deskEngine desk "desk" "s" [] deskSession os "desk" _
    rfl rfl (desk_kept _) exhausts
  exact ⟨exhausts, hiff.mpr hnever⟩

/-- A node that fails, succeeds and fails again has not failed twice in a row. -/
theorem desk_recovers :
    let os := [.error "down", .ok "yes", .error "down"].map deskTurn
    deskEngine.create "desk" "s" [] = .ok deskSession ∧
      (∀ o ∈ os, o.engine.flow? desk.id = some desk) ∧
      Exhausts (deskSession.run os).talk (deskSession.log os) "desk" (deskSession.log os) ∧
      failInARow (max 1 desk.settings.maxRetries) (stay "desk" (deskSession.log os)) = false := by
  intro os
  have hrun : (deskSession.run os).talk.ended = some "max_retries" ∧
      (deskSession.run os).talk.node = "desk" ∧
      failedLast "desk" (deskSession.log os) = true ∧
      failInARow (max 1 desk.settings.maxRetries) (stay "desk" (deskSession.log os)) = false := by
    decide +kernel
  obtain ⟨hended, hnode, hfailed, hrow⟩ := hrun
  exact ⟨rfl, desk_kept _, .ends hended hnode rfl hfailed, hrow⟩

end Dialogue
