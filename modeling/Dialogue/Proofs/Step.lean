import Dialogue.Proofs.Execution
import Dialogue.Proofs.Soundness
import Dialogue.Proofs.Speaking
/-!
One step of a turn: the node is executed, then one of eight things follows. The cases of `Settles`
say all that a step can do; what a turn keeps is shown case by case from them.
-/
namespace Dialogue

variable {σ : Type}

namespace Result

@[simp] theorem joined_kind (r : Result) (spoken : List String) :
    (r.joined spoken).kind = r.kind := by
  unfold joined
  split <;> rfl

@[simp] theorem joined_waits (r : Result) (spoken : List String) :
    (r.joined spoken).waits = r.waits := by
  unfold joined
  split <;> rfl

@[simp] theorem joined_fault (r : Result) (spoken : List String) :
    (r.joined spoken).fault = r.fault := by
  unfold joined
  split <;> rfl

@[simp] theorem joined_note? (r : Result) (spoken : List String) (name : String) :
    (r.joined spoken).note? name = r.note? name := by
  unfold joined
  split <;> rfl

end Result

namespace Stage
variable (st : Stage σ) (node : String) (sc : Scene σ)

@[simp] theorem say_node (text : Option String) :
    (st.say node text sc).talk.node = sc.talk.node := by
  unfold say
  split <;> rfl

@[simp] theorem say_retries (text : Option String) :
    (st.say node text sc).talk.retries = sc.talk.retries := by
  unfold say
  split <;> rfl

@[simp] theorem say_complete (text : Option String) :
    (st.say node text sc).talk.complete = sc.talk.complete := by
  unfold say
  split <;> rfl

@[simp] theorem say_ended (text : Option String) :
    (st.say node text sc).talk.ended = sc.talk.ended := by
  unfold say
  split <;> rfl

theorem say_still (text : Option String) : sc.world.Still (st.say node text sc).world := by
  unfold say
  split
  · exact World.Still.refl _
  · exact st.services.tell_still _ _ rfl

theorem say_of_spoken {text : String} (h : Text.isBlankText text = false) :
    st.say node (some text) sc =
      { sc.record node text with world := st.services.tell (.said st.session node text) sc.world } := by
  have hs : Text.spoken? (some text) = some text := by
    rw [Text.spoken?, Option.filter_some, h]
    rfl
  unfold say
  rw [hs]
  rfl

@[simp] theorem excuse_node (r : Result) : (st.excuse node r sc).talk.node = sc.talk.node := by
  unfold excuse
  split <;> simp

@[simp] theorem excuse_retries (r : Result) :
    (st.excuse node r sc).talk.retries = sc.talk.retries := by
  unfold excuse
  split <;> simp

@[simp] theorem excuse_complete (r : Result) :
    (st.excuse node r sc).talk.complete = sc.talk.complete := by
  unfold excuse
  split <;> simp

@[simp] theorem excuse_ended (r : Result) :
    (st.excuse node r sc).talk.ended = sc.talk.ended := by
  unfold excuse
  split <;> simp

theorem excuse_still (r : Result) : sc.world.Still (st.excuse node r sc).world := by
  unfold excuse
  split
  · exact st.say_still node sc _
  · exact World.Still.refl _

theorem move_journal (target : String) :
    (st.move target sc).world.journal =
      sc.world.journal ++ [.told (.entered st.session (some sc.talk.node) target)] := rfl

@[simp] theorem handOff_node (fault : Fault) (reason : String) :
    (st.handOff fault reason sc).2.talk.node = sc.talk.node :=
  st.say_node _ sc _

@[simp] theorem handOff_retries (fault : Fault) (reason : String) :
    (st.handOff fault reason sc).2.talk.retries = sc.talk.retries :=
  st.say_retries _ sc _

@[simp] theorem handOff_complete (fault : Fault) (reason : String) :
    (st.handOff fault reason sc).2.talk.complete = true := rfl

@[simp] theorem handOff_ended (fault : Fault) (reason : String) :
    (st.handOff fault reason sc).2.talk.ended = some reason := rfl

@[simp] theorem handOff_kind (fault : Fault) (reason : String) :
    (st.handOff fault reason sc).1.kind = .failed := Result.joined_kind _ _

@[simp] theorem handOff_waits (fault : Fault) (reason : String) :
    (st.handOff fault reason sc).1.waits = false := Result.joined_waits _ _

@[simp] theorem handOff_fault (fault : Fault) (reason : String) :
    (st.handOff fault reason sc).1.fault = some fault := Result.joined_fault _ _

@[simp] theorem handOff_note? (fault : Fault) (reason : String) :
    (st.handOff fault reason sc).1.note? "end_reason" = some reason :=
  Result.joined_note? _ _ _

theorem handOff_still (fault : Fault) (reason : String) :
    sc.world.Still (st.handOff fault reason sc).2.world :=
  st.say_still _ sc _

/-- The words for the way are the last ones of the agent, unless they are blank. -/
theorem handOff_turns (fault : Fault) (reason : String)
    (h : Text.isBlankText st.flow.settings.handoffMessage = false) :
    (st.handOff fault reason sc).2.talk.turns.getLast? =
      some ⟨.agent, st.flow.settings.handoffMessage, sc.talk.node, []⟩ := by
  unfold handOff
  rw [st.say_of_spoken _ sc h]
  exact List.getLast?_concat

theorem fallback?_eq : st.fallback? = st.flow.settings.fallback := by
  unfold fallback?
  cases h : st.flow.settings.fallback with
  | none => rfl
  | some id => simp [Option.filter, st.flow.fallback_isSome h]

end Stage

structure Executes (st : Stage σ) (n : Flow.Node) (input : Option String) (sc : Scene σ)
    (r : Result) (sc' : Scene σ) : Prop where
  fits : r.Fits n
  node : sc'.talk.node = sc.talk.node
  retries : sc'.talk.retries = sc.talk.retries
  complete : sc'.talk.complete = sc.talk.complete
  ended : sc'.talk.ended = sc.talk.ended
  journal : ∃ log, Journal.Quiet log ∧
    sc'.world.journal = sc.world.journal ++ log ++ [.ran n.id input r]
  voice : Speaks st (Turn.ofAgent n.id (r.note? "pending_message")) sc sc'

theorem Stage.executed_spec (st : Stage σ) (n : Flow.Node) (input : Option String)
    (sc : Scene σ) :
    Executes st n input sc (st.executed n input sc).1 (st.executed n input sc).2 := by
  have hrun := Run.execute_spec st.services
    ⟨st.session, st.flow.settings, sc.talk.recent st.config.window⟩ n input sc.talk.vars sc.world
  unfold executed
  dsimp only
  generalize execute st.services _ n input sc.talk.vars sc.world = run at hrun ⊢
  obtain ⟨r, vars, world⟩ := run
  obtain ⟨hfits, huses⟩ := hrun
  obtain ⟨log, hlog, hquiet⟩ := huses.still (r.announced_quiet _ _)
  have hjournal : (world.note (.ran n.id input r)).journal =
      sc.world.journal ++ log ++ [.ran n.id input r] := by rw [← hlog]; rfl
  have htold := huses.tells.trans_silent (.ran st.services world n.id input r)
  rw [Result.announced] at htold
  cases hnote : r.note? "pending_message" with
  | none =>
    rw [hnote] at htold
    refine ⟨hfits, rfl, rfl, rfl, rfl, ⟨log, hquiet, hjournal⟩, ?_⟩
    rw [hnote]
    exact .silent rfl rfl htold (by simp)
  | some text =>
    rw [hnote] at htold
    refine ⟨hfits, rfl, rfl, rfl, rfl, ⟨log, hquiet, hjournal⟩, ?_⟩
    rw [hnote]
    exact ⟨rfl, by simp [Turn.ofAgent], rfl, _, htold, rfl⟩

/-- What follows from the result of a node: one case for each way out of a step. -/
inductive Settles (st : Stage σ) (node : String) (r : Result) (sc : Scene σ) : Step σ → Prop where
  | concludes (final : r.isFinal = true) :
      Settles st node r sc (((st.say node r.text sc).closed r.endReason).finish r)
  | triesAgain (fails : r.fails = true)
      (left : sc.talk.retries + 1 < st.flow.settings.maxRetries) :
      Settles st node r sc
        ((st.excuse node r (st.say node r.text sc.counted)).finish { r with waits := true })
  | fallsBack (fails : r.fails = true)
      (spent : st.flow.settings.maxRetries ≤ sc.talk.retries + 1) (target : String)
      (fallback : st.flow.settings.fallback = some target) :
      Settles st node r sc (.goOn (st.move target (st.say node r.text sc.counted)))
  | givesUp (fails : r.fails = true)
      (spent : st.flow.settings.maxRetries ≤ sc.talk.retries + 1)
      (fallback : st.flow.settings.fallback = none) :
      Settles st node r sc
        (.done (st.handOff (.retriesExhausted node st.flow.settings.maxRetries) "max_retries"
            (st.say node r.text sc.counted)).1
          (st.handOff (.retriesExhausted node st.flow.settings.maxRetries) "max_retries"
            (st.say node r.text sc.counted)).2)
  | stays (fails : r.fails = false) (final : r.isFinal = false) (next : r.next = none) :
      Settles st node r sc ((st.say node r.text sc).finish r)
  | strays (fails : r.fails = false) (target : String) (next : r.next = some target)
      (missing : st.flow.node? target = none) :
      Settles st node r sc ((st.say node r.text sc).finish (.ofFault (.nodeNotFound target)))
  | arrives (fails : r.fails = false) (target : String) (next : r.next = some target)
      (waits : r.waits = true) :
      Settles st node r sc ((st.move target (st.say node r.text sc)).finish r)
  | goesOn (fails : r.fails = false) (target : String) (next : r.next = some target)
      (found : (st.flow.node? target).isSome = true) :
      Settles st node r sc (.goOn (st.move target (st.say node r.text sc)))

theorem Stage.settle_settles (st : Stage σ) (node : String) (r : Result) (sc : Scene σ) :
    Settles st node r sc (st.settle node r sc) := by
  unfold settle
  split
  · next final => exact .concludes final
  · next final =>
    have hfails : r.fails = r.isStuck := by simp [Result.fails, final]
    split
    · next stuck =>
      rw [stuck] at hfails
      unfold retry
      dsimp only
      split
      · next left => exact .triesAgain hfails (by simpa [Scene.counted] using left)
      · next spent =>
        have spent : st.flow.settings.maxRetries ≤ sc.talk.retries + 1 := by
          simpa [Scene.counted] using spent
        split
        · next target fallback => exact .fallsBack hfails spent target (by rwa [← st.fallback?_eq])
        · next fallback => exact .givesUp hfails spent (by rwa [← st.fallback?_eq])
    · next stuck =>
      rw [Bool.not_eq_true] at stuck
      rw [stuck] at hfails
      unfold follow
      dsimp only
      split
      · next next => exact .stays hfails (by simpa using final) next
      · next target next =>
        split
        · next missing => exact .strays hfails target next (by simpa using missing)
        · next found =>
          split
          · next waits => exact .arrives hfails target next waits
          · exact .goesOn hfails target next (Option.isSome_iff_ne_none.mpr (by simpa using found))

namespace Stage

/-- A step on a node of the flow executes it, and settles its result. -/
theorem step_spec (st : Stage σ) (input : Option String) (sc : Scene σ) {n : Flow.Node}
    (hn : st.flow.node? sc.talk.node = some n) :
    ∃ r sc', Executes st n input sc r sc' ∧ Settles st n.id r sc' (st.step input sc) := by
  refine ⟨_, _, st.executed_spec n input sc, ?_⟩
  simp only [step, hn]
  exact st.settle_settles _ _ _

theorem step_missing (st : Stage σ) (input : Option String) (sc : Scene σ)
    (hn : st.flow.node? sc.talk.node = none) :
    st.step input sc = sc.finish (.ofFault (.nodeNotFound sc.talk.node)) := by
  simp only [step, hn]

end Stage

structure Ran (st : Stage σ) (n : Flow.Node) (input : Option String) (sc : Scene σ) (r : Result)
    (more : List Entry) (sc' : Scene σ) : Prop where
  here : st.flow.node? sc.talk.node = some n
  fits : r.Fits n
  journal : ∃ log, Journal.Quiet log ∧
    sc'.world.journal = sc.world.journal ++ log ++ .ran n.id input r :: more

theorem Executes.ran {st : Stage σ} {n : Flow.Node} {input : Option String} {sc sc₁ : Scene σ}
    {r : Result} (h : Executes st n input sc r sc₁) (hn : st.flow.node? sc.talk.node = some n)
    {sc' : Scene σ} {more : List Entry}
    (hmore : sc'.world.journal = sc₁.world.journal ++ more) : Ran st n input sc r more sc' where
  here := hn
  fits := h.fits
  journal := by
    obtain ⟨log, hlog, e⟩ := h.journal
    exact ⟨log, hlog, by rw [hmore, e, List.append_assoc _ [_], List.singleton_append]⟩

inductive Leaves (f : Flow) (r : Result) (retries : Nat) (target : String) : Prop where
  | forced (fails : r.fails = true) (spent : f.settings.maxRetries ≤ retries + 1)
      (fallback : f.settings.fallback = some target)
  | chosen (fails : r.fails = false) (next : r.next = some target)

inductive Stops (f : Flow) (r : Result) (t t' : Talk) (r' : Result) : Prop where
  | concluded (final : r.isFinal = true) (retries : t'.retries = t.retries)
      (complete : t'.complete = true) (ended : t'.ended = some r.endReason) (kind : r'.kind = r.kind)
      (fault : r'.fault = r.fault)
  | retried (fails : r.fails = true) (left : t.retries + 1 < f.settings.maxRetries)
      (retries : t'.retries = t.retries + 1) (complete : t'.complete = t.complete)
      (ended : t'.ended = t.ended) (waits : r'.waits = true) (fault : r'.fault = r.fault)
  | spent (fails : r.fails = true) (spent : f.settings.maxRetries ≤ t.retries + 1)
      (fallback : f.settings.fallback = none) (retries : t'.retries = t.retries + 1)
      (complete : t'.complete = true) (ended : t'.ended = some "max_retries")
      (note : r'.note? "end_reason" = some "max_retries")
      (fault : r'.fault = some (.retriesExhausted t.node f.settings.maxRetries))
  | stayed (fails : r.fails = false) (final : r.isFinal = false) (next : r.next = none)
      (retries : t'.retries = t.retries) (complete : t'.complete = t.complete)
      (ended : t'.ended = t.ended) (kind : r'.kind = r.kind) (fault : r'.fault = r.fault)

namespace Stage
variable (st : Stage σ)

theorem step_goOn {input : Option String} {sc sc' : Scene σ} (h : st.step input sc = .goOn sc') :
    ∃ n r more, Journal.Quiet more ∧
      Ran st n input sc r
        (more ++ [.told (.entered st.session (some sc.talk.node) sc'.talk.node)]) sc' ∧
      Leaves st.flow r sc.talk.retries sc'.talk.node ∧
      (st.flow.node? sc'.talk.node).isSome = true ∧ sc'.talk.retries = 0 ∧
      sc'.talk.complete = sc.talk.complete ∧ sc'.talk.ended = sc.talk.ended := by
  cases hn : st.flow.node? sc.talk.node with
  | none =>
    rw [st.step_missing input sc hn] at h
    cases h
  | some n =>
    obtain ⟨r, sc₁, he, hs⟩ := st.step_spec input sc hn
    rw [h] at hs
    cases hs with
    | fallsBack fails spent target fallback =>
      obtain ⟨more, hmore, hq⟩ := st.say_still n.id sc₁.counted r.text
      refine ⟨n, r, more, hq, he.ran hn ?_, .forced fails (by rwa [← he.retries]) fallback,
        st.flow.fallback_isSome fallback, rfl, ?_, ?_⟩
      · rw [st.move_journal, hmore]
        simp [Scene.counted, move, he.node]
      · simp [move, Scene.counted, he.complete]
      · simp [move, Scene.counted, he.ended]
    | goesOn fails target next found =>
      obtain ⟨more, hmore, hq⟩ := st.say_still n.id sc₁ r.text
      refine ⟨n, r, more, hq, he.ran hn ?_, .chosen fails next, found, rfl, ?_, ?_⟩
      · rw [st.move_journal, hmore]
        simp [move, he.node]
      · simp [move, he.complete]
      · simp [move, he.ended]

theorem step_done {input : Option String} {sc sc' : Scene σ} {r' : Result} {n : Flow.Node}
    (hn : st.flow.node? sc.talk.node = some n) (h : st.step input sc = .done r' sc') :
    ∃ r more, Journal.Quiet more ∧ Ran st n input sc r more sc' ∧
      sc'.talk.node = sc.talk.node ∧ Stops st.flow r sc.talk sc'.talk r' := by
  obtain ⟨r, sc₁, he, hs⟩ := st.step_spec input sc hn
  rw [h] at hs
  cases hs with
  | concludes final =>
    obtain ⟨more, hmore, hq⟩ := st.say_still n.id sc₁ r.text
    refine ⟨r, more, hq, he.ran hn hmore, ?_, .concluded final ?_ rfl rfl ?_ ?_⟩ <;>
      simp [Scene.closed, Talk.close, he.node, he.retries]
  | triesAgain fails left =>
    obtain ⟨more, hmore, hq⟩ := (st.say_still n.id sc₁.counted r.text).trans
      (st.excuse_still n.id _ r)
    refine ⟨r, more, hq, he.ran hn hmore, ?_, .retried fails (by rwa [← he.retries]) ?_ ?_ ?_ ?_ ?_⟩ <;>
      simp [Scene.counted, he.node, he.retries, he.complete, he.ended]
  | givesUp fails spent fallback =>
    obtain ⟨more, hmore, hq⟩ := (st.say_still n.id sc₁.counted r.text).trans
      (st.handOff_still _ (.retriesExhausted n.id st.flow.settings.maxRetries) "max_retries")
    refine ⟨r, more, hq, he.ran hn hmore, ?_,
      .spent fails (by rwa [← he.retries]) fallback ?_ ?_ ?_ ?_ ?_⟩ <;>
      simp [Scene.counted, he.node, he.retries, Flow.id_of_node? hn]
  | stays fails final next =>
    obtain ⟨more, hmore, hq⟩ := st.say_still n.id sc₁ r.text
    refine ⟨r, more, hq, he.ran hn hmore, ?_, .stayed fails final next ?_ ?_ ?_ ?_ ?_⟩ <;>
      simp [he.node, he.retries, he.complete, he.ended]
  | strays fails target next missing =>
    obtain ⟨e, hmem, rfl⟩ := he.fits.target target next
    have hfound := st.flow.target_isSome (Flow.mem_of_node? hn) hmem
    rw [missing] at hfound
    cases hfound
  | arrives fails target next waits =>
    have hw := he.fits.moves (by rw [next]; rfl)
    rw [waits] at hw
    cases hw

end Stage
end Dialogue
