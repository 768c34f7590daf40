import Dialogue.Proofs.Run
/-!
The life of a session. Main statement: after any requests a session is lawful, a session that is
not over rests on no node that ends it, and one that is over never changes again.
-/
namespace Dialogue

open Journal (executions)

variable {σ μ : Type}

inductive Flow.Closes (f : Flow) (node : String) : String → Prop where
  | retries : Closes f node "max_retries"
  | limit : Closes f node "continuation_limit"
  | transfer (n : Flow.Node) (here : f.node? node = some n) (t : Flow.Transfer)
      (kind : n.kind = .transfer t) : Closes f node "transfer"
  | ending (n : Flow.Node) (here : f.node? node = some n) (e : Flow.Ending)
      (kind : n.kind = .ending e) : Closes f node e.reason

structure Lawful (f : Flow) (t : Talk) : Prop where
  onNode : (f.node? t.node).isSome = true
  complete : t.complete = true ↔ t.ended.isSome = true
  retries : t.complete = false → t.retries = 0 ∨ t.retries < f.settings.maxRetries
  reason : ∀ reason, t.ended = some reason → f.Closes t.node reason

def Settled (f : Flow) (t : Talk) : Prop :=
  t.complete = false → ∀ n, f.node? t.node = some n → n.kind.isFinal = false

theorem Engine.create_flow {e : Engine σ} {f : Flow} {flow id : String}
    {initial : Table Json.Value} {s : Session μ} (loaded : e.flow? flow = some f)
    (h : e.create flow id initial = .ok s) : s.flow = f.id := by
  simp only [create, loaded, Except.ok.injEq] at h
  rw [← h]

namespace Lawful

theorem ended_none {f : Flow} {t : Talk} (h : Lawful f t) (live : t.complete = false) :
    t.ended = none := by
  have hc := h.complete
  rw [live] at hc
  cases he : t.ended with
  | none => rfl
  | some reason => simp [he] at hc

/-- Only the words of a conversation do not count. -/
theorem of_talk {f : Flow} {t t' : Talk} (h : Lawful f t) (node : t'.node = t.node)
    (retries : t'.retries = t.retries) (complete : t'.complete = t.complete)
    (ended : t'.ended = t.ended) : Lawful f t' where
  onNode := by rw [node]; exact h.onNode
  complete := by rw [complete, ended]; exact h.complete
  retries := by rw [complete, retries]; exact h.retries
  reason := by rw [ended, node]; exact h.reason

theorem of_opens {f : Flow} {s : Session μ} {sc : Scene σ} (h : Lawful f s.talk)
    (opens : Opens s sc) : Lawful f sc.talk :=
  h.of_talk opens.node opens.retries opens.complete opens.ended

/-- A node that ends the conversation gives the reason. -/
theorem closes_final {f : Flow} {node : String} {n : Flow.Node} {r : Result}
    (hn : f.node? node = some n) (fits : r.Fits n) (final : r.isFinal = true) :
    f.Closes node r.endReason := by
  rw [fits.final] at final
  cases hk : n.kind with
  | ending e =>
    rw [fits.reason e hk]
    exact .ending n hn e hk
  | transfer t =>
    rw [fits.transfer t hk]
    exact .transfer n hn t hk
  | conversation | call | split | extraction => simp [hk, Flow.NodeKind.isFinal] at final

theorem step_goOn {st : Stage σ} {input : Option String} {sc sc' : Scene σ}
    (h : Lawful st.flow sc.talk) (live : sc.talk.complete = false)
    (hs : st.step input sc = .goOn sc') :
    Lawful st.flow sc'.talk ∧ sc'.talk.complete = false := by
  obtain ⟨n, r, more, -, -, -, found, retries, complete, ended⟩ := st.step_goOn hs
  rw [live] at complete
  rw [h.ended_none live] at ended
  refine ⟨⟨found, ?_, fun _ => .inl retries, ?_⟩, complete⟩
  · simp [complete, ended]
  · simp [ended]

theorem step_done {st : Stage σ} {input : Option String} {sc sc' : Scene σ} {r' : Result}
    (h : Lawful st.flow sc.talk) (live : sc.talk.complete = false)
    (hs : st.step input sc = .done r' sc') :
    Lawful st.flow sc'.talk ∧ Settled st.flow sc'.talk ∧
      ∀ id, r'.fault ≠ some (.nodeNotFound id) := by
  obtain ⟨n, hn⟩ := Option.isSome_iff_exists.mp h.onNode
  obtain ⟨r, more, -, hran, node, hstop⟩ := st.step_done hn hs
  have onNode : (st.flow.node? sc'.talk.node).isSome = true := by rw [node]; exact h.onNode
  have settled (hf : r.isFinal = false) : Settled st.flow sc'.talk := by
    intro _ n' hn'
    rw [node, hn] at hn'
    cases hn'
    rw [← hran.fits.final, hf]
  cases hstop with
  | concluded final retries complete ended kind fault =>
    refine ⟨⟨onNode, by simp [complete, ended], by simp [complete], ?_⟩, by simp [Settled, complete], ?_⟩
    · intro reason hr
      rw [ended] at hr
      cases hr
      rw [node]
      exact closes_final hn hran.fits final
    · rw [fault]
      exact hran.fits.fault
  | retried fails left retries complete ended waits fault =>
    rw [live] at complete
    rw [h.ended_none live] at ended
    refine ⟨⟨onNode, by simp [complete, ended], ?_, by simp [ended]⟩, ?_, ?_⟩
    · rw [retries]
      exact fun _ => .inr left
    · simp only [Result.fails, Bool.and_eq_true, Bool.not_eq_true'] at fails
      exact settled fails.1
    · rw [fault]
      exact hran.fits.fault
  | spent fails spent fallback retries complete ended note fault =>
    refine ⟨⟨onNode, by simp [complete, ended], by simp [complete], ?_⟩, by simp [Settled, complete], ?_⟩
    · intro reason hr
      rw [ended] at hr
      cases hr
      exact .retries
    · simp [fault]
  | stayed fails final next retries complete ended kind fault =>
    refine ⟨h.of_talk node retries complete ended, settled final, ?_⟩
    rw [fault]
    exact hran.fits.fault

/-- What a turn on a lawful conversation comes to. -/
theorem drive (st : Stage σ) {sc : Scene σ} (h : Lawful st.flow sc.talk)
    (live : sc.talk.complete = false) (left : Nat) (input : Option String) :
    let (r, sc') := st.drive left input sc
    Lawful st.flow sc'.talk ∧ Settled st.flow sc'.talk ∧
      ∀ id, r.fault ≠ some (.nodeNotFound id) := by
  refine st.drive_induct (P := fun sc => Lawful st.flow sc.talk ∧ sc.talk.complete = false)
    (Q := fun r sc => Lawful st.flow sc.talk ∧ Settled st.flow sc.talk ∧
      ∀ id, r.fault ≠ some (.nodeNotFound id)) ?_ ?_ ?_ left input sc ⟨h, live⟩
  · rintro input sc r sc' ⟨h, live⟩ hs
    exact h.step_done live hs
  · rintro input sc sc' ⟨h, live⟩ hs
    exact h.step_goOn live hs
  · rintro input sc sc' ⟨h, live⟩ hs
    obtain ⟨h', live'⟩ := h.step_goOn live hs
    refine ⟨⟨?_, ?_, ?_, ?_⟩, ?_, ?_⟩
    · simpa [Stage.proceed] using h'.onNode
    · simp [Stage.proceed]
    · simp [Stage.proceed]
    · intro reason hr
      simp only [Stage.proceed, Stage.handOff_ended, Option.some.injEq] at hr
      subst hr
      exact .limit
    · simp [Settled, Stage.proceed]
    · simp [Stage.proceed]

theorem created {e : Engine σ} {f : Flow} {flow id : String} {initial : Table Json.Value}
    {s : Session μ} (loaded : e.flow? flow = some f) (h : e.create flow id initial = .ok s) :
    Lawful f s.talk := by
  simp only [Engine.create, loaded, Except.ok.injEq] at h
  subst h
  exact ⟨f.start_isSome, by simp, fun _ => .inl rfl, by simp⟩

/-- Whatever the services answer, an occasion keeps the conversation lawful, and a node is always
found. -/
theorem after {f : Flow} {s : Session μ} (h : Lawful f s.talk) (o : Occasion σ)
    (hc : Comes o f s) :
    Lawful f (o.after s).talk ∧ ∀ r, o.result s = some r → ∀ id, r.fault ≠ some (.nodeNotFound id) := by
  cases hc with
  | closed complete after log fault =>
    rw [after]
    exact ⟨h, fault⟩
  | idle frame turns talk quiet fault =>
    refine ⟨?_, fault⟩
    rw [talk]
    exact h.of_talk rfl rfl rfl rfl
  | turn live cue sc opens result talk log =>
    have hdrive := drive (o.engine.stage f s) (h.of_opens opens) (opens.complete.trans live)
      o.engine.config.continuations cue.input
    rw [talk]
    refine ⟨hdrive.1, ?_⟩
    intro r hr
    rw [result, Option.some.injEq] at hr
    rw [← hr]
    exact hdrive.2.2

/-- Once a turn has run, the conversation is settled, and it stays so. -/
theorem settled {f : Flow} {s : Session μ} (h : Lawful f s.talk) (o : Occasion σ)
    (hc : Comes o f s)
    (hs : Settled f s.talk ∨ o.request.begins = true ∨ 0 < executions (o.log s)) :
    Settled f (o.after s).talk := by
  cases hc with
  | closed complete after log fault =>
    rw [after]
    simp [Settled, complete]
  | idle frame turns talk quiet fault =>
    rw [talk]
    obtain ⟨bytes, frame⟩ := frame
    rcases hs with hs | hs | hs
    · exact hs
    · rw [frame] at hs
      cases hs
    · rw [Journal.executions_quiet quiet] at hs
      exact absurd hs (Nat.lt_irrefl 0)
  | turn live cue sc opens result talk log =>
    have hdrive := drive (o.engine.stage f s) (h.of_opens opens) (opens.complete.trans live)
      o.engine.config.continuations cue.input
    rw [talk]
    exact hdrive.2.1

/-- The next failed turn can be counted in as many bits as the limit. -/
theorem countable {f : Flow} {t : Talk} (h : Lawful f t) (live : t.complete = false)
    (limit : f.settings.maxRetries < UInt32.size) : t.retries + 1 < UInt32.size := by
  rcases h.retries live with hr | hr
  · rw [hr]
    decide
  · omega

end Lawful

/-- A session that began lawful is lawful after any requests, and settled once a turn has run. -/
theorem Session.run_lawful {s : Session μ} {f : Flow} (lawful : Lawful f s.talk)
    (os : List (Occasion σ)) (kept : ∀ o ∈ os, o.engine.flow? s.flow = some f) :
    Lawful f (s.run os).talk ∧
      ((∃ o ∈ os, o.request.begins = true) ∨ 0 < executions (s.log os) →
        Settled f (s.run os).talk) := by
  refine Session.run_induct (P := fun os => Lawful f (s.run os).talk ∧
    ((∃ o ∈ os, o.request.begins = true) ∨ 0 < executions (s.log os) →
      Settled f (s.run os).talk)) ⟨lawful, by simp [Session.log]⟩ ?_ os kept
  rintro before o ⟨h, hsettled⟩ hcomes
  rw [s.run_concat, s.log_concat, Journal.executions_append]
  refine ⟨(h.after o hcomes).1, fun hturn => h.settled o hcomes ?_⟩
  rcases hturn with ⟨o', ho', hb⟩ | hx
  · rcases List.mem_append.mp ho' with ho' | ho'
    · exact .inl (hsettled (.inl ⟨o', ho', hb⟩))
    · rw [List.mem_singleton.mp ho'] at hb
      exact .inr (.inl hb)
  · rcases Nat.add_pos_iff_pos_or_pos.mp hx with hx | hx
    · exact .inl (hsettled (.inr hx))
    · exact .inr (.inr hx)

/-- After any requests since it was created in a flow, a session is lawful and its node is found;
once a turn has run, it is over or rests on a node that does not end it; and when it is over,
nothing changes it or is called upon for it. -/
theorem session_lawful (e : Engine σ) (f : Flow) (flow id : String) (initial : Table Json.Value)
    (s : Session μ) (os : List (Occasion σ)) (loaded : e.flow? flow = some f)
    (created : e.create flow id initial = .ok s)
    (kept : ∀ o ∈ os, o.engine.flow? f.id = some f) :
    let s' := s.run os
    Lawful f s'.talk ∧
    (∀ o : Occasion σ, o.engine.flow? f.id = some f →
      ∀ r, o.result s' = some r → ∀ id, r.fault ≠ some (.nodeNotFound id)) ∧
    (s'.talk.complete = false → f.settings.maxRetries < UInt32.size →
      s'.talk.retries + 1 < UInt32.size) ∧
    ((∃ o ∈ os, o.request.begins = true) ∨ 0 < executions (s.log os) → Settled f s'.talk) ∧
    (s'.talk.complete = true → ∀ (e : Engine σ) (w : World σ) (request : Request),
      e.answer s' w request = (request.closing, s', w) ∧
        ∀ r, request.closing = some r → r.kind = .ended) := by
  have here := e.create_flow loaded created
  rw [← here] at kept
  obtain ⟨h, hsettled⟩ := Session.run_lawful (.created loaded created) os kept
  refine ⟨h, ?_, h.countable, hsettled, ?_⟩
  · intro o ho
    exact (h.after o (o.comes (s.run os) (by rwa [Session.run_flow os kept, here])).1).2
  · intro complete e w request
    exact ⟨e.answer_complete (s.run os) w request complete, request.closing_kind⟩

theorem desk_lawful :
    let s' := deskSession.run ([.error "down", .error "down"].map deskTurn)
    deskEngine.create "desk" "s" [] = .ok deskSession ∧ Lawful desk s'.talk ∧
      s'.talk.complete = true ∧ deskEngine.answer s' ⟨.ok "", []⟩ .start =
        (some Engine.ended, s', ⟨.ok "", []⟩) := by
  intro s'
  obtain ⟨hlawful, -, -, -, hclosed⟩ := session_lawful deskEngine desk "desk" "s" [] deskSession
    ([.error "down", .error "down"].map deskTurn) rfl rfl (desk_kept _)
  have hcomplete : s'.talk.complete = true := by decide +kernel
  obtain ⟨hanswer, -⟩ := hclosed hcomplete deskEngine ⟨.ok "", []⟩ .start
  exact ⟨rfl, hlawful, hcomplete, hanswer⟩

end Dialogue
