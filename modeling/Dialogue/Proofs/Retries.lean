import Dialogue.Proofs.Cap
import Dialogue.Proofs.Run
/-!
Failed turns in a row. Main statement: a session stays on its node while they are fewer than the
limit, and the one that reaches the limit takes it to the fallback or ends it.
-/
namespace Dialogue

open Journal (executions transitions)

variable {σ μ : Type}

inductive Fails (st : Stage σ) (left : Nat) (sc : Scene σ) (r : Result) (sc' : Scene σ) : Prop where
  | again (few : sc.talk.retries + 1 < st.flow.settings.maxRetries)
      (node : sc'.talk.node = sc.talk.node) (retries : sc'.talk.retries = sc.talk.retries + 1)
      (complete : sc'.talk.complete = sc.talk.complete) (waits : r.waits = true)
  | fallsBack (spent : st.flow.settings.maxRetries ≤ sc.talk.retries + 1) (sc₁ : Scene σ)
      (fallback : st.flow.settings.fallback = some sc₁.talk.node)
      (moved : ∃ before, sc₁.world.journal = sc.world.journal ++ before ++
          [.told (.entered st.session (some sc.talk.node) sc₁.talk.node)] ∧
        executions before = 1 ∧ transitions before = 0)
      (retries : sc₁.talk.retries = 0) (complete : sc₁.talk.complete = sc.talk.complete)
      (goesOn : st.proceed left sc₁ = (r, sc'))
  | givesUp (spent : st.flow.settings.maxRetries ≤ sc.talk.retries + 1)
      (fallback : st.flow.settings.fallback = none) (node : sc'.talk.node = sc.talk.node)
      (complete : sc'.talk.complete = true) (ended : sc'.talk.ended = some "max_retries")

namespace Stage
variable (st : Stage σ)

theorem drive_missing (left : Nat) (input : Option String) (sc : Scene σ)
    (hn : st.flow.node? sc.talk.node = none) : (st.drive left input sc).2 = sc := by
  rw [st.drive_done (st.step_missing input sc hn)]

theorem proceed_journal (left : Nat) (sc : Scene σ) :
    ∃ log, (st.proceed left sc).2.world.journal = sc.world.journal ++ log := by
  cases left with
  | zero =>
    obtain ⟨log, hlog, -⟩ := st.handOff_still sc
      (.continuationLimit st.config.continuations) "continuation_limit"
    exact ⟨log, hlog⟩
  | succ left =>
    obtain ⟨log, hlog, -⟩ := st.drive_journal left none sc
    exact ⟨log, hlog⟩

/-- A turn begins with an execution of the node of the session. -/
theorem drive_first (left : Nat) (input : Option String) (sc : Scene σ) {n : Flow.Node}
    (hn : st.flow.node? sc.talk.node = some n) :
    ∃ log r more, Journal.Quiet log ∧
      (st.drive left input sc).2.world.journal =
        sc.world.journal ++ log ++ .ran n.id input r :: more ∧
      (r.fails = true → Fails st left sc (st.drive left input sc).1 (st.drive left input sc).2) := by
  cases hs : st.step input sc with
  | done r' sc' =>
    obtain ⟨r, more, -, hran, node, hstop⟩ := st.step_done hn hs
    obtain ⟨log, hlog, e⟩ := hran.journal
    rw [st.drive_done hs]
    refine ⟨log, r, more, hlog, e, fun hfails => ?_⟩
    cases hstop with
    | concluded final => simp [Result.fails, final] at hfails
    | retried _ few retries complete _ waits => exact .again few node retries complete waits
    | spent _ spent fallback _ complete ended => exact .givesUp spent fallback node complete ended
    | stayed fails => rw [hfails] at fails; cases fails
  | goOn sc' =>
    obtain ⟨n', r, more, -, hran, hleave, -, retries, complete, -⟩ := st.step_goOn hs
    obtain ⟨log, hlog, e⟩ := hran.journal
    obtain ⟨rest, hrest⟩ := st.proceed_journal left sc'
    have hn' : n' = n := Option.some.inj (hran.here.symm.trans hn)
    subst hn'
    rw [st.drive_goOn hs, hrest, e]
    refine ⟨log, r, _, hlog, List.append_assoc .., fun hfails => ?_⟩
    cases hleave with
    | forced _ spent fallback =>
      exact .fallsBack spent sc' fallback (st.step_goOn_journal hs) retries complete rfl
    | chosen fails => rw [hfails] at fails; cases fails

end Stage

structure Arrives (o : Occasion σ) (f : Flow) (s : Session μ) (sc : Scene σ) : Prop where
  moved : ∃ before, sc.world.journal =
      before ++ [.told (.entered s.id (some s.talk.node) sc.talk.node)] ∧
    executions before = 1 ∧ transitions before = 0
  retries : sc.talk.retries = 0
  complete : sc.talk.complete = false
  result : o.result s =
    some ((o.engine.stage f s).proceed o.engine.config.continuations sc).1
  talk : (o.after s).talk =
    ((o.engine.stage f s).proceed o.engine.config.continuations sc).2.talk
  log : o.log s =
    ((o.engine.stage f s).proceed o.engine.config.continuations sc).2.world.journal

theorem Opens.arrives {o : Occasion σ} {f : Flow} {s : Session μ} {sc sc₁ sc' : Scene σ}
    {r : Result} (opens : Opens s sc) (live : s.talk.complete = false)
    (moved : ∃ before, sc₁.world.journal = sc.world.journal ++ before ++
        [.told (.entered s.id (some sc.talk.node) sc₁.talk.node)] ∧
      executions before = 1 ∧ transitions before = 0)
    (retries : sc₁.talk.retries = 0) (complete : sc₁.talk.complete = sc.talk.complete)
    (goesOn : (o.engine.stage f s).proceed o.engine.config.continuations sc₁ = (r, sc'))
    (result : o.result s = some r) (talk : (o.after s).talk = sc'.talk)
    (log : o.log s = sc'.world.journal) : Arrives o f s sc₁ := by
  obtain ⟨before, e, hx, ht⟩ := moved
  rw [opens.node] at e
  refine ⟨⟨sc.world.journal ++ before, e, ?_, ?_⟩, retries, ?_, ?_, ?_, ?_⟩
  · rw [Journal.executions_append, Journal.executions_quiet opens.quiet, hx]
  · rw [Journal.transitions_append, Journal.transitions_quiet opens.quiet, ht]
  · rw [complete, opens.complete, live]
  · rw [result, goesOn]
  · rw [talk, goesOn]
  · rw [log, goesOn]

/-- With a transition left, the node is executed, and no one is asked for a word. -/
theorem Arrives.executed {o : Occasion σ} {f : Flow} {s : Session μ} {sc : Scene σ}
    (h : Arrives o f s sc) (found : (f.node? sc.talk.node).isSome = true)
    (cap : 1 ≤ o.engine.config.continuations) :
    ∃ log r more, Journal.Quiet log ∧
      o.log s = sc.world.journal ++ log ++ .ran sc.talk.node none r :: more := by
  obtain ⟨n, hn⟩ := Option.isSome_iff_exists.mp found
  obtain ⟨left, hleft⟩ := Nat.exists_eq_add_one_of_ne_zero (Nat.one_le_iff_ne_zero.mp cap)
  obtain ⟨log, r, more, hq, e, -⟩ := (o.engine.stage f s).drive_first left none sc hn
  rw [h.log, hleft]
  exact ⟨log, r, more, hq, by rw [Stage.proceed, e, Flow.id_of_node? hn]⟩

def Occasion.first? (o : Occasion σ) (s : Session μ) : Option Result := Journal.first? (o.log s)

/-- An occasion leaves the conversation where it stands, or it is a turn. -/
theorem Comes.first {o : Occasion σ} {f : Flow} {s : Session μ} (h : Comes o f s) :
    (o.first? s = none ∧ (o.after s).talk.node = s.talk.node ∧
      (o.after s).talk.retries = s.talk.retries ∧
      (o.after s).talk.complete = s.talk.complete) ∨
    (s.talk.complete = false ∧ ∃ r sc r' sc', o.first? s = some r ∧ Opens s sc ∧
      o.result s = some r' ∧ (o.after s).talk = sc'.talk ∧ o.log s = sc'.world.journal ∧
      (r.fails = true →
        Fails (o.engine.stage f s) o.engine.config.continuations sc r' sc')) := by
  cases h with
  | closed complete after log fault =>
    rw [Occasion.first?, log, after]
    exact .inl ⟨rfl, rfl, rfl, rfl⟩
  | idle frame turns talk quiet fault =>
    rw [Occasion.first?, talk]
    exact .inl ⟨Journal.first?_quiet quiet, rfl, rfl, rfl⟩
  | turn live cue sc opens result talk log =>
    rw [Occasion.turn] at result talk log
    cases hn : f.node? sc.talk.node with
    | none =>
      have hsc := (o.engine.stage f s).drive_missing o.engine.config.continuations cue.input sc hn
      rw [hsc] at talk log
      rw [Occasion.first?, log, talk]
      exact .inl ⟨Journal.first?_quiet opens.quiet, opens.node, opens.retries, opens.complete⟩
    | some n =>
      obtain ⟨quiet, r, more, hq, e, hfails⟩ :=
        (o.engine.stage f s).drive_first o.engine.config.continuations cue.input sc hn
      refine .inr ⟨live, r, sc, _, _, ?_, opens, result, talk, log, hfails⟩
      rw [Occasion.first?, log, e]
      exact Journal.first?_ran (Journal.quiet_append opens.quiet hq) ..

namespace Session

def turns (s : Session μ) : List (Occasion σ) → Nat
  | [] => 0
  | o :: rest => (if (o.first? s).isSome then 1 else 0) + turns (o.after s) rest

def eachFails (s : Session μ) : List (Occasion σ) → Bool
  | [] => true
  | o :: rest => (o.first? s).all Result.fails && eachFails (o.after s) rest

theorem turns_append (s : Session μ) (before rest : List (Occasion σ)) :
    s.turns (before ++ rest) = s.turns before + (s.run before).turns rest := by
  induction before generalizing s with
  | nil => simp [turns, run]
  | cons o before ih => simp only [List.cons_append, turns, run, ih, Nat.add_assoc]

theorem turns_idle {s : Session μ} {before : List (Occasion σ)} {o : Occasion σ}
    (h : o.first? (s.run before) = none) : s.turns (before ++ [o]) = s.turns before := by
  simp [turns_append, turns, h]

theorem turns_first {s : Session μ} {before : List (Occasion σ)} {o : Occasion σ} {r : Result}
    (h : o.first? (s.run before) = some r) : s.turns (before ++ [o]) = s.turns before + 1 := by
  simp [turns_append, turns, h]

theorem eachFails_append (s : Session μ) (before rest : List (Occasion σ)) :
    s.eachFails (before ++ rest) = (s.eachFails before && (s.run before).eachFails rest) := by
  induction before generalizing s with
  | nil => rfl
  | cons o before ih => simp only [List.cons_append, eachFails, run, ih, Bool.and_assoc]

theorem eachFails_concat {s : Session μ} {before : List (Occasion σ)} {o : Occasion σ}
    (h : s.eachFails (before ++ [o]) = true) :
    s.eachFails before = true ∧ (o.first? (s.run before)).all Result.fails = true := by
  simpa [eachFails_append, eachFails] using h

end Session

inductive Persists (f : Flow) (s : Session μ) (os : List (Occasion σ)) : Prop where
  | stays (few : s.turns os < max 1 f.settings.maxRetries)
      (live : (s.run os).talk.complete = false) (node : (s.run os).talk.node = s.talk.node)
      (retries : (s.run os).talk.retries = s.turns os)
  | leaves (spent : max 1 f.settings.maxRetries ≤ s.turns os)
      (ends : f.settings.fallback = none →
        s.turns os = max 1 f.settings.maxRetries ∧ (s.run os).talk.complete = true)

theorem Persists.concat {f : Flow} {s : Session μ} {before : List (Occasion σ)} {o : Occasion σ}
    (h : Persists f s before) (hc : Comes o f (s.run before))
    (failed : (o.first? (s.run before)).all Result.fails = true) :
    Persists f s (before ++ [o]) := by
  rcases hc.first with ⟨first, node', retries', complete'⟩ |
    ⟨live', r, sc, r', sc', first, opens, -, talk, -, hfails⟩
  · cases h with
    | stays few live node retries =>
      refine .stays ?_ ?_ ?_ ?_
      · rwa [Session.turns_idle first]
      · rwa [s.run_concat, complete']
      · rwa [s.run_concat, node']
      · rwa [s.run_concat, retries', Session.turns_idle first]
    | leaves spent ends =>
      refine .leaves ?_ ?_
      · rwa [Session.turns_idle first]
      · rwa [s.run_concat, complete', Session.turns_idle first]
  · have hturns := Session.turns_first first
    cases h with
    | stays few live node retries =>
      rw [first] at failed
      cases hfails failed with
      | again few' node' retries' complete' =>
        rw [opens.retries, retries] at few' retries'
        refine .stays ?_ ?_ ?_ ?_
        · rw [hturns]
          exact Nat.lt_of_lt_of_le few' (Nat.le_max_right ..)
        · rw [s.run_concat, talk, complete', opens.complete, live]
        · rw [s.run_concat, talk, node', opens.node, node]
        · rw [s.run_concat, talk, retries', hturns]
      | fallsBack spent sc₁ fallback =>
        rw [opens.retries, retries] at spent
        refine .leaves ?_ fun none => ?_
        · rw [hturns]
          exact Nat.max_le.mpr ⟨Nat.succ_pos _, spent⟩
        · rw [show f.settings.fallback = _ from fallback] at none
          cases none
      | givesUp spent _ _ complete =>
        rw [opens.retries, retries] at spent
        have spent : max 1 f.settings.maxRetries ≤ s.turns before + 1 :=
          Nat.max_le.mpr ⟨Nat.succ_pos _, spent⟩
        rw [← hturns] at spent
        refine .leaves spent fun _ => ⟨Nat.le_antisymm ?_ spent, ?_⟩
        · rw [hturns]
          exact few
        · rw [s.run_concat, talk, complete]
    | leaves spent ends =>
      refine .leaves ?_ fun none => ?_
      · rw [hturns]
        exact Nat.le_succ_of_le spent
      · rw [live'] at ends
        cases (ends none).2

theorem Session.persists {f : Flow} {s : Session μ} (live : s.talk.complete = false)
    (fresh : s.talk.retries = 0) (os : List (Occasion σ))
    (kept : ∀ o ∈ os, o.engine.flow? s.flow = some f) (failed : s.eachFails os = true) :
    Persists f s os := by
  refine (Session.run_induct (f := f) (P := fun os => s.eachFails os = true → Persists f s os)
    ?_ ?_ os kept) failed
  · intro _
    exact .stays (Nat.lt_of_lt_of_le Nat.one_pos (Nat.le_max_left ..)) live rfl fresh
  · intro before o ih hc hfailed
    obtain ⟨hbefore, ho⟩ := Session.eachFails_concat hfailed
    exact (ih hbefore).concat hc ho

/-- Where a row of failed turns takes a session that no turn has failed on yet. Below the limit it
stays, and the user may try again. At the limit it goes to the fallback, which is executed in the
same turn if a transition is left; without a fallback it is over, and the row is at an end. -/
theorem failed_turns (f : Flow) (s : Session μ) (os : List (Occasion σ)) (o : Occasion σ)
    (kept : ∀ o' ∈ os ++ [o], o'.engine.flow? s.flow = some f) (live : s.talk.complete = false)
    (fresh : s.talk.retries = 0) (failed : s.eachFails (os ++ [o]) = true)
    (turn : (o.first? (s.run os)).isSome = true) :
    let limit := max 1 f.settings.maxRetries
    let count := s.turns (os ++ [o])
    let s' := s.run (os ++ [o])
    (count < limit →
      s'.talk.complete = false ∧ s'.talk.node = s.talk.node ∧ s'.talk.retries = count ∧
        ∃ r, o.result (s.run os) = some r ∧ r.waits = true) ∧
    (count = limit → ∀ target, f.settings.fallback = some target →
      (s.run os).talk.node = s.talk.node ∧
        ∃ sc, sc.talk.node = target ∧ Arrives o f (s.run os) sc ∧
          (1 ≤ o.engine.config.continuations → ∃ log r more, Journal.Quiet log ∧
            o.log (s.run os) = sc.world.journal ++ log ++ .ran target none r :: more)) ∧
    (count = limit → f.settings.fallback = none →
      s'.talk.complete = true ∧ s'.talk.ended = some "max_retries" ∧
        s'.talk.node = s.talk.node) ∧
    (f.settings.fallback = none → count ≤ limit) := by
  dsimp only
  have kept' : ∀ o' ∈ os, o'.engine.flow? s.flow = some f :=
    fun o' h => kept o' (List.mem_append_left _ h)
  obtain ⟨r, first⟩ := Option.isSome_iff_exists.mp turn
  obtain ⟨hbefore, hfailed⟩ := Session.eachFails_concat failed
  rw [first] at hfailed
  have ho := kept o (List.mem_append_right _ List.mem_cons_self)
  have hc := (o.comes (s.run os) (by rwa [Session.run_flow os kept'])).1
  rcases hc.first with ⟨none, -⟩ | ⟨live', r₀, sc, r', sc', first', opens, result, talk, log, hfails⟩
  · rw [first] at none
    cases none
  · have hr : r₀ = r := Option.some.inj (first'.symm.trans first)
    subst hr
    rw [Session.turns_first first, s.run_concat, talk]
    cases Session.persists live fresh os kept' hbefore with
    | leaves spent ends =>
      refine ⟨by omega, by omega, by omega, fun none => ?_⟩
      rw [live'] at ends
      cases (ends none).2
    | stays few _ node retries =>
      cases hfails hfailed with
      | again few' node' retries' complete' waits =>
        rw [opens.retries, retries] at few'
        replace few' : s.turns os + 1 < f.settings.maxRetries := few'
        refine ⟨fun _ => ⟨?_, ?_, ?_, r', result, waits⟩, by omega, by omega, by omega⟩
        · rw [complete', opens.complete, live']
        · rw [node', opens.node, node]
        · rw [retries', opens.retries, retries]
      | fallsBack spent sc₁ fallback moved retries₁ complete₁ goesOn =>
        rw [opens.retries, retries] at spent
        replace spent : f.settings.maxRetries ≤ s.turns os + 1 := spent
        replace fallback : f.settings.fallback = some sc₁.talk.node := fallback
        have arrives := opens.arrives live' moved retries₁ complete₁ goesOn result talk log
        have found := f.fallback_isSome fallback
        rw [fallback]
        refine ⟨by omega, fun _ target htarget => ⟨node, sc₁, ?_, arrives, ?_⟩, ?_, ?_⟩
        · exact Option.some.inj htarget
        · rw [← Option.some.inj htarget]
          exact arrives.executed found
        · intro _ none
          cases none
        · intro none
          cases none
      | givesUp spent fallback node' complete ended =>
        rw [opens.retries, retries] at spent
        replace spent : f.settings.maxRetries ≤ s.turns os + 1 := spent
        replace fallback : f.settings.fallback = none := fallback
        refine ⟨by omega, ?_, fun _ _ => ⟨complete, ended, ?_⟩, by omega⟩
        · intro _ target htarget
          rw [fallback] at htarget
          cases htarget
        · rw [node', opens.node, node]

theorem desk_gives_up :
    let os := [.error "down", .error "down"].map deskTurn
    let s' := deskSession.run os
    deskSession.talk.complete = false ∧ deskSession.talk.retries = 0 ∧
      deskSession.eachFails os = true ∧ s'.talk.ended = some "max_retries" ∧
      s'.talk.node = "desk" := by
  intro os s'
  have hrun : deskSession.eachFails os = true ∧
      (Occasion.first? (deskTurn (.error "down"))
        (deskSession.run [deskTurn (.error "down")])).isSome = true ∧
      deskSession.turns os = max 1 desk.settings.maxRetries := by decide +kernel
  obtain ⟨failed, hturn, hcount⟩ := hrun
  obtain ⟨-, -, hclosed, -⟩ := failed_turns desk deskSession [deskTurn (.error "down")]
    (deskTurn (.error "down")) (desk_kept [.error "down", .error "down"]) rfl rfl failed hturn
  obtain ⟨-, hended, hnode⟩ := hclosed hcount rfl
  exact ⟨rfl, rfl, failed, hended, hnode⟩

end Dialogue
