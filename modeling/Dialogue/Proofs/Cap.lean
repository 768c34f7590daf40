import Dialogue.Proofs.Turn
/-!
The cap on the transitions of one turn. Main statement: a turn executes at most one node more than
the cap, and it is cut short exactly when it would go on by itself once more.
-/
namespace Dialogue

open Journal (executions transitions)

variable {σ μ : Type}

namespace Stage
variable (st : Stage σ)

/-- Whether a turn without a cap would go on by itself at least so many times. -/
def continues : Nat → Option String → Scene σ → Bool
  | 0, _, _ => true
  | count + 1, input, sc =>
    match st.step input sc with
    | .done .. => false
    | .goOn sc => continues count none sc

theorem continues_done {count : Nat} {input : Option String} {sc sc' : Scene σ} {r : Result}
    (h : st.step input sc = .done r sc') : st.continues (count + 1) input sc = false := by
  simp [continues, h]

theorem continues_goOn {count : Nat} {input : Option String} {sc sc' : Scene σ}
    (h : st.step input sc = .goOn sc') :
    st.continues (count + 1) input sc = st.continues count none sc' := by
  simp [continues, h]

theorem step_goOn_journal {input : Option String} {sc sc' : Scene σ}
    (h : st.step input sc = .goOn sc') :
    ∃ before, sc'.world.journal = sc.world.journal ++ before ++
        [.told (.entered st.session (some sc.talk.node) sc'.talk.node)] ∧
      executions before = 1 ∧ transitions before = 0 := by
  obtain ⟨n, r, more, hmore, hran, -⟩ := st.step_goOn h
  obtain ⟨log, hlog, e⟩ := hran.journal
  exact ⟨log ++ .ran n.id input r :: more, by rw [e]; simp,
    Journal.executions_ran_quiet hlog n.id input r hmore,
    Journal.transitions_ran_quiet hlog n.id input r hmore⟩

theorem step_done_journal {input : Option String} {sc sc' : Scene σ} {r : Result}
    (h : st.step input sc = .done r sc') :
    ∃ log, sc'.world.journal = sc.world.journal ++ log ∧
      executions log ≤ 1 ∧ transitions log = 0 := by
  cases hn : st.flow.node? sc.talk.node with
  | none =>
    rw [st.step_missing input sc hn] at h
    cases h
    exact ⟨[], by simp, by simp, by simp⟩
  | some n =>
    obtain ⟨r₀, more, hmore, hran, -⟩ := st.step_done hn h
    obtain ⟨log, hlog, e⟩ := hran.journal
    exact ⟨log ++ .ran n.id input r₀ :: more, by rw [e]; simp,
      Nat.le_of_eq (Journal.executions_ran_quiet hlog n.id input r₀ hmore),
      Journal.transitions_ran_quiet hlog n.id input r₀ hmore⟩

/-- Only a turn that is cut short ends in this way. -/
theorem step_done_ne {input : Option String} {sc sc' : Scene σ} {r : Result}
    (h : st.step input sc = .done r sc') (hk : r.kind = .failed) (hw : r.waits = false) :
    r.note? "end_reason" ≠ some "continuation_limit" := by
  cases hn : st.flow.node? sc.talk.node with
  | none =>
    rw [st.step_missing input sc hn] at h
    cases h
    simp [Result.ofFault, Result.ofKind] at hw
  | some n =>
    obtain ⟨r₀, more, -, hran, -, hstop⟩ := st.step_done hn h
    cases hstop with
    | concluded final _ _ _ kind =>
      simp [Result.isFinal, ← kind, hk] at final
    | retried _ _ _ _ _ waits =>
      rw [hw] at waits
      cases waits
    | spent _ _ _ _ _ _ note => simp [note]
    | stayed fails final _ _ _ _ kind =>
      simp [Result.fails, final, Result.isStuck, ← kind, hk] at fails

/-- A turn executes at most one node more than there are transitions left. -/
theorem drive_journal (left : Nat) (input : Option String) (sc : Scene σ) :
    ∃ log, (st.drive left input sc).2.world.journal = sc.world.journal ++ log ∧
      executions log ≤ left + 1 ∧ transitions log ≤ left + 1 := by
  induction left generalizing input sc with
  | zero =>
    cases hs : st.step input sc with
    | done r sc' =>
      obtain ⟨log, e, hx, ht⟩ := st.step_done_journal hs
      rw [st.drive_done hs]
      exact ⟨log, e, hx, by omega⟩
    | goOn sc' =>
      obtain ⟨before, e, hx, ht⟩ := st.step_goOn_journal hs
      obtain ⟨after, e', hq⟩ := st.handOff_still sc'
        (.continuationLimit st.config.continuations) "continuation_limit"
      rw [st.drive_goOn hs, proceed, e', e]
      refine ⟨before ++ .told (.entered st.session (some sc.talk.node) sc'.talk.node) :: after,
        by simp, ?_, ?_⟩
      · simp [Journal.executions_append, hx, Journal.executions_quiet hq]
      · simp [Journal.transitions_append, ht, Journal.transitions_quiet hq]
  | succ left ih =>
    cases hs : st.step input sc with
    | done r sc' =>
      obtain ⟨log, e, hx, ht⟩ := st.step_done_journal hs
      rw [st.drive_done hs]
      exact ⟨log, e, by omega, by omega⟩
    | goOn sc' =>
      obtain ⟨before, e, hx, ht⟩ := st.step_goOn_journal hs
      obtain ⟨after, e', hx', ht'⟩ := ih none sc'
      rw [st.drive_goOn hs, proceed, e', e]
      refine ⟨before ++ .told (.entered st.session (some sc.talk.node) sc'.talk.node) :: after,
        by simp, ?_, ?_⟩
      · rw [Journal.executions_append, hx, Journal.executions_told]
        omega
      · rw [Journal.transitions_append, ht, Journal.transitions_entered]
        omega

/-- A turn that would go on once more than it may is cut short on the node it has just come to. -/
theorem drive_cut (left : Nat) (input : Option String) (sc : Scene σ)
    (h : st.continues (left + 1) input sc = true) :
    ∃ sc' before source, st.drive left input sc =
        st.handOff (.continuationLimit st.config.continuations) "continuation_limit" sc' ∧
      sc'.world.journal = sc.world.journal ++ before ++
        [.told (.entered st.session (some source) sc'.talk.node)] := by
  induction left generalizing input sc with
  | zero =>
    cases hs : st.step input sc with
    | done r sc' => simp [st.continues_done hs] at h
    | goOn sc' =>
      obtain ⟨before, e, -⟩ := st.step_goOn_journal hs
      exact ⟨sc', before, _, st.drive_goOn hs, e⟩
  | succ left ih =>
    cases hs : st.step input sc with
    | done r sc' => simp [st.continues_done hs] at h
    | goOn sc' =>
      obtain ⟨before, e, -⟩ := st.step_goOn_journal hs
      rw [st.continues_goOn hs] at h
      obtain ⟨sc₂, between, source, hcut, e'⟩ := ih none sc' h
      refine ⟨sc₂, before ++ .told (.entered st.session (some sc.talk.node) sc'.talk.node) ::
        between, source, ?_, ?_⟩
      · rw [st.drive_goOn hs]
        exact hcut
      · rw [e', e]
        simp

/-- Any other turn ends with a step. -/
theorem drive_ends (left : Nat) (input : Option String) (sc : Scene σ)
    (h : st.continues (left + 1) input sc = false) :
    ∃ input' sc', st.step input' sc' =
      .done (st.drive left input sc).1 (st.drive left input sc).2 := by
  induction left generalizing input sc with
  | zero =>
    cases hs : st.step input sc with
    | done r sc' => exact ⟨input, sc, by rw [hs, st.drive_done hs]⟩
    | goOn sc' =>
      rw [st.continues_goOn hs] at h
      cases h
  | succ left ih =>
    cases hs : st.step input sc with
    | done r sc' => exact ⟨input, sc, by rw [hs, st.drive_done hs]⟩
    | goOn sc' =>
      rw [st.continues_goOn hs] at h
      rw [st.drive_goOn hs]
      exact ih none sc' h

end Stage

/-- A turn executes at most one node more than the cap, and makes at most one transition more. It is
cut short exactly when it would go on by itself once more, and then it has not executed the last
node that it came to. -/
theorem turn_within_cap (e : Engine σ) (f : Flow) (s : Session μ) (cue : Cue) (w : World σ)
    (loaded : e.flow? s.flow = some f) (live : s.talk.complete = false) :
    let r := (e.turn s w cue).1
    let s' := (e.turn s w cue).2.1
    let w' := (e.turn s w cue).2.2
    let cap := e.config.continuations
    let needed := (e.stage f s).continues (cap + 1) cue.input (e.opening s w cue)
    ∃ log, w'.journal = w.journal ++ log ∧
      executions log ≤ cap + 1 ∧ transitions log ≤ cap + 1 ∧
      (needed = true ↔
        r.kind = .failed ∧ r.waits = false ∧ r.note? "end_reason" = some "continuation_limit" ∧
          s'.talk.complete = true ∧ s'.talk.ended = some "continuation_limit") ∧
      (needed = true →
        (∃ before source after,
          log = before ++ .told (.entered s.id (some source) s'.talk.node) :: after ∧
            executions after = 0 ∧ transitions after = 0) ∧
        (Text.isBlankText f.settings.handoffMessage = false →
          s'.talk.turns.getLast? =
            some ⟨.agent, f.settings.handoffMessage, s'.talk.node, []⟩)) := by
  rw [e.turn_live s w cue loaded live]
  dsimp only
  obtain ⟨start, hstart, hquiet⟩ := e.opening_still s w cue
  obtain ⟨log, hlog, hx, ht⟩ := (e.stage f s).drive_journal e.config.continuations cue.input
    (e.opening s w cue)
  refine ⟨start ++ log, by rw [hlog, hstart, List.append_assoc], ?_, ?_, ?_, ?_⟩
  · rwa [Journal.executions_append, Journal.executions_quiet hquiet, Nat.zero_add]
  · rwa [Journal.transitions_append, Journal.transitions_quiet hquiet, Nat.zero_add]
  · constructor
    · intro needed
      obtain ⟨sc, -, -, hcut, -⟩ := (e.stage f s).drive_cut _ _ _ needed
      rw [hcut]
      simp
    · rintro ⟨hk, hw, hnote, -⟩
      refine Bool.of_not_eq_false fun unneeded => ?_
      obtain ⟨input, sc, hs⟩ := (e.stage f s).drive_ends _ _ _ unneeded
      exact (e.stage f s).step_done_ne hs hk hw hnote
  · intro needed
    obtain ⟨sc, before, source, hcut, hbefore⟩ := (e.stage f s).drive_cut _ _ _ needed
    obtain ⟨after, hafter, hq⟩ := (e.stage f s).handOff_still sc
      (.continuationLimit e.config.continuations) "continuation_limit"
    rw [hcut] at hlog ⊢
    constructor
    · refine ⟨start ++ before, source, after, ?_, Journal.executions_quiet hq,
        Journal.transitions_quiet hq⟩
      have hlog : log = before ++ .told (.entered s.id (some source) sc.talk.node) :: after := by
        refine List.append_cancel_left (hlog.symm.trans (hafter.trans ?_))
        rw [hbefore]
        simp [Engine.stage]
      rw [hlog]
      simp
    · intro spoken
      rw [Stage.handOff_node]
      exact (e.stage f s).handOff_turns sc _ _ spoken

def cycle : Flow where
  document :=
    { id := "cycle", name := "", version := "1.0.0", description := none, settings := .standard
      start := "left"
      nodes := [(Flow.Node.ofKind "left" .split).addEdge ⟨"", "right", [], true, 0⟩,
        (Flow.Node.ofKind "right" .split).addEdge ⟨"", "left", [], true, 0⟩]
      createdAt := none, updatedAt := none }
  sound := by decide

def cycleEngine : Engine Unit :=
  ⟨.standard, [("cycle", cycle)], ⟨fun _ _ state => (.ok "", state), [], none, [], fun _ => .asListed⟩⟩

def cycleSession : Session Unit :=
  ⟨"cycle", "s", ⟨"left", .ofInitial [], [], 0, false, none⟩, none, .idle, none⟩

theorem cycle_cut :
    let s' := (cycleEngine.turn cycleSession ⟨(), []⟩ .start).2.1
    let w' := (cycleEngine.turn cycleSession ⟨(), []⟩ .start).2.2
    cycleEngine.flow? cycleSession.flow = some cycle ∧ cycleSession.talk.complete = false ∧
      s'.talk.ended = some "continuation_limit" ∧
      ∃ log, w'.journal = log ∧ executions log ≤ 11 ∧ transitions log ≤ 11 := by
  obtain ⟨log, hlog, hx, ht, hcut, -⟩ :=
    turn_within_cap cycleEngine cycle cycleSession .start ⟨(), []⟩ rfl rfl
  obtain ⟨-, -, -, -, hended⟩ := hcut.mp (by decide +kernel)
  exact ⟨rfl, rfl, hended, log, hlog, hx, ht⟩

end Dialogue
