import Dialogue.Proofs.Utterance
/-!
Failures and silence. Main statement: in a turn in which a node fails the user hears something,
unless the fallback of the flow has taken over and has nothing to say.
-/
namespace Dialogue

open Journal (results)

variable {σ μ : Type}

namespace Text

theorem spoken?_eq_some {text : Option String} {t : String} (h : spoken? text = some t) :
    text = some t ∧ isBlankText t = false := by
  rw [spoken?, Option.filter_eq_some_iff] at h
  simpa using h

theorem mem_intercalate {mark text : List Char} {texts : List (List Char)} {c : Char}
    (ht : text ∈ texts) (hc : c ∈ text) : c ∈ mark.intercalate texts := by
  induction texts with
  | nil => simp at ht
  | cons first rest ih =>
    cases rest with
    | nil =>
      rw [List.mem_singleton] at ht
      rwa [List.intercalate_singleton, ← ht]
    | cons second rest =>
      rw [List.intercalate_cons_cons]
      rcases List.mem_cons.mp ht with rfl | ht
      · simp [hc]
      · simp [ih ht]

/-- Joined with others, a text that is not blank does not become so. -/
theorem isBlankText_intercalate {text : String} {texts : List String} (ht : text ∈ texts)
    (h : isBlankText text = false) (mark : String) :
    isBlankText (String.intercalate mark texts) = false := by
  rw [isBlankText, List.all_eq_false] at h ⊢
  obtain ⟨c, hc, hblank⟩ := h
  refine ⟨c, ?_, hblank⟩
  rw [String.toList_intercalate]
  exact mem_intercalate (List.mem_map_of_mem ht) hc

end Text

namespace Journal

def Each (P : Result → Prop) (log : List Entry) : Prop := ∀ r ∈ results log, P r

abbrev Calm (log : List Entry) : Prop := Each (fun r => r.fails = false) log

abbrev Mute (log : List Entry) : Prop := Each (fun r => Text.spoken? r.text = none) log

namespace Each
variable {P : Result → Prop} {log more : List Entry}

theorem nil : Each P [] := by simp [Each, results]

theorem append (h : Each P log) (h' : Each P more) : Each P (log ++ more) := by
  intro r hr
  rw [results_append] at hr
  exact (List.mem_append.mp hr).elim (h r) (h' r)

theorem of_quiet (h : Quiet log) : Each P log := by simp [Each, results_quiet h]

theorem of_results {r : Result} (ran : results log = [r]) (h : P r) : Each P log := by
  simpa [Each, ran] using h

end Each
end Journal

open Journal (Calm Mute)

/-- The last failure has taken the session to the fallback, and since then no node has failed. In
the whole turn none had anything to say. -/
structure FallsSilent (f : Flow) (log since : List Entry) : Prop where
  moved : ∃ before id source target,
    log = before ++ .told (.entered id (some source) target) :: since ∧
    f.settings.fallback = some target ∧ (results before).getLast?.any Result.fails = true
  calm : Calm since
  mute : Mute log

theorem FallsSilent.append {f : Flow} {log since more : List Entry} (h : FallsSilent f log since)
    (calm : Calm more) (mute : Mute more) : FallsSilent f (log ++ more) (since ++ more) where
  moved := by
    obtain ⟨before, id, source, target, e, moved⟩ := h.moved
    exact ⟨before, id, source, target, by rw [e]; simp, moved⟩
  calm := h.calm.append calm
  mute := h.mute.append mute

def Scene.Heard (sc : Scene σ) : Prop := ∃ text ∈ sc.spoken, Text.isBlankText text = false

theorem Speaks.heard {st : Stage σ} {said : List Turn} {sc sc' : Scene σ}
    (h : Speaks st said sc sc') (heard : sc.Heard) : sc'.Heard := by
  obtain ⟨text, htext, hblank⟩ := heard
  exact ⟨text, by rw [h.spoken]; exact List.mem_append_left _ htext, hblank⟩

inductive Stands (f : Flow) (log : List Entry) (sc : Scene σ) : Prop where
  | heard (heard : sc.Heard)
  | calm (calm : Calm log) (mute : Mute log)
  | fallen (since : List Entry) (falls : FallsSilent f log since)
      (found : (f.node? sc.talk.node).isSome = true)

inductive Ends (f : Flow) (log : List Entry) (sc : Scene σ) : Prop where
  | heard (heard : sc.Heard)
  | calm (calm : Calm log)
  | fallen (since : List Entry) (falls : FallsSilent f log since) (ran : results since ≠ [])
  | blank (live : sc.talk.complete = false) (mute : Mute log) (r : Result)
      (last : (results log).getLast? = some r) (fails : r.fails = true) (own : r.text ≠ none)

namespace Stands
variable {f : Flow} {log more : List Entry} {r : Result} {sc sc' : Scene σ}

theorem heard_or_mute (h : Stands f log sc) : sc.Heard ∨ Mute log := by
  cases h with
  | heard heard => exact .inl heard
  | calm _ mute => exact .inr mute
  | fallen _ falls => exact .inr falls.mute

theorem ends (h : Stands f log sc) (kept : sc.Heard → sc'.Heard) (ran : results more = [r])
    (fails : r.fails = false) (silent : Text.spoken? r.text = none) : Ends f (log ++ more) sc' := by
  have hcalm : Calm more := .of_results ran fails
  have hmute : Mute more := .of_results ran silent
  cases h with
  | heard heard => exact .heard (kept heard)
  | calm calm => exact .calm (calm.append hcalm)
  | fallen since falls =>
    refine .fallen _ (falls.append hcalm hmute) ?_
    rw [Journal.results_append, ran]
    simp

theorem goesOn (h : Stands f log sc) (kept : sc.Heard → sc'.Heard) (ran : results more = [r])
    (fails : r.fails = false) (silent : Text.spoken? r.text = none)
    (found : (f.node? sc'.talk.node).isSome = true) : Stands f (log ++ more) sc' := by
  have hcalm : Calm more := .of_results ran fails
  have hmute : Mute more := .of_results ran silent
  cases h with
  | heard heard => exact .heard (kept heard)
  | calm calm mute => exact .calm (calm.append hcalm) (mute.append hmute)
  | fallen since falls => exact .fallen _ (falls.append hcalm hmute) found

end Stands

theorem Executes.appends {st : Stage σ} {n : Flow.Node} {input : Option String}
    {sc sc₁ : Scene σ} {r : Result} (h : Executes st n input sc r sc₁) {w : World σ}
    (still : sc₁.world.Still w) :
    ∃ more, w.journal = sc.world.journal ++ more ∧ results more = [r] := by
  obtain ⟨quiet, hquiet, hran⟩ := h.journal
  obtain ⟨rest, hrest, hq⟩ := still
  refine ⟨quiet ++ .ran n.id input r :: rest, ?_, Journal.results_ran hquiet n.id input r hq⟩
  rw [hrest, hran]
  simp

theorem Executes.moves {st : Stage σ} {n : Flow.Node} {input : Option String}
    {sc sc₁ sc₂ : Scene σ} {r : Result} (h : Executes st n input sc r sc₁)
    (still : sc₁.world.Still sc₂.world) (target : String) :
    ∃ ran, results ran = [r] ∧ (st.move target sc₂).world.journal = sc.world.journal ++
      (ran ++ [.told (.entered st.session (some sc₂.talk.node) target)]) := by
  obtain ⟨ran, hran, hr⟩ := h.appends still
  exact ⟨ran, hr, by rw [st.move_journal, hran, List.append_assoc]⟩

theorem results_moved {ran : List Entry} {r : Result} (h : results ran = [r])
    (session source target : String) :
    results (ran ++ [.told (.entered session (some source) target)]) = [r] := by
  rw [Journal.results_append, h]
  rfl

namespace Stage
variable (st : Stage σ) (node : String) (sc : Scene σ)

theorem say_heard {text : Option String} {t : String} (h : Text.spoken? text = some t) :
    (st.say node text sc).Heard := by
  have hspoken := (st.say_speaks node sc text).spoken
  rw [h] at hspoken
  exact ⟨t, by simp [hspoken, Turn.ofAgent], (Text.spoken?_eq_some h).2⟩

theorem say_some_heard {text : String} (h : Text.isBlankText text = false) :
    (st.say node (some text) sc).Heard :=
  st.say_heard node sc (t := text) (by simp [Text.spoken?, h])

theorem handOff_heard (fault : Fault) (reason : String)
    (h : Text.isBlankText st.flow.settings.handoffMessage = false) :
    (st.handOff fault reason sc).2.Heard :=
  (Scene.closed_speaks st _ reason).heard (st.say_some_heard _ sc h)

/-- A failure is excused in the words of the node or, where it has none, of the flow. Blanks of the
node are no excuse, but stand in the way of one. -/
theorem excuse_heard (r : Result)
    (error : Text.isBlankText st.flow.settings.errorMessage = false) :
    (st.excuse node r (st.say node r.text sc)).Heard ∨
      r.text ≠ none ∧ Text.spoken? r.text = none := by
  obtain ⟨said, hsaid⟩ := st.excuse_speaks node (st.say node r.text sc) r
  cases hspoken : Text.spoken? r.text with
  | some t => exact .inl (hsaid.heard (st.say_heard node sc hspoken))
  | none =>
    cases htext : r.text with
    | some text => exact .inr ⟨by simp, rfl⟩
    | none =>
      rw [excuse, htext]
      exact .inl (st.say_some_heard node _ error)

theorem step_goOn_stands {input : Option String} {sc sc' : Scene σ} {log : List Entry}
    (stands : Stands st.flow log sc) (h : st.step input sc = .goOn sc') :
    ∃ more, sc'.world.journal = sc.world.journal ++ more ∧ Stands st.flow (log ++ more) sc' := by
  obtain ⟨said, hsaid⟩ := st.step_goOn_speaks h
  cases hn : st.flow.node? sc.talk.node with
  | none =>
    rw [st.step_missing input sc hn] at h
    cases h
  | some n =>
    obtain ⟨r, sc₁, he, hs⟩ := st.step_spec input sc hn
    rw [h] at hs
    cases hs with
    | fallsBack fails _ target fallback =>
      obtain ⟨ran, hr, hran⟩ := he.moves (st.say_still n.id sc₁.counted r.text) target
      refine ⟨_, hran, ?_⟩
      cases hspoken : Text.spoken? r.text with
      | some t =>
        exact .heard ((st.move_speaks _ target).heard (st.say_heard n.id sc₁.counted hspoken))
      | none =>
        -- an earlier failure no longer counts: the fallback is entered afresh
        rcases stands.heard_or_mute with heard | mute
        · exact .heard (hsaid.heard heard)
        · have last : (results (log ++ ran)).getLast?.any Result.fails = true := by
            rw [Journal.results_append, hr, List.getLast?_concat]
            exact fails
          refine .fallen [] ⟨?_, .nil, mute.append ?_⟩ (st.flow.fallback_isSome fallback)
          · exact ⟨log ++ ran, _, _, target, (List.append_assoc log ran _).symm, fallback, last⟩
          · exact .of_results (results_moved hr _ _ target) hspoken
    | goesOn fails target _ found =>
      obtain ⟨ran, hr, hran⟩ := he.moves (st.say_still n.id sc₁ r.text) target
      refine ⟨_, hran, ?_⟩
      cases hspoken : Text.spoken? r.text with
      | some t =>
        exact .heard ((st.move_speaks _ target).heard (st.say_heard n.id sc₁ hspoken))
      | none => exact stands.goesOn hsaid.heard (results_moved hr _ _ target) fails hspoken found

theorem step_done_ends {input : Option String} {sc sc' : Scene σ} {r' : Result}
    {log : List Entry} (error : Text.isBlankText st.flow.settings.errorMessage = false)
    (handoff : Text.isBlankText st.flow.settings.handoffMessage = false)
    (live : sc.talk.complete = false) (stands : Stands st.flow log sc)
    (h : st.step input sc = .done r' sc') :
    ∃ more, sc'.world.journal = sc.world.journal ++ more ∧ Ends st.flow (log ++ more) sc' := by
  obtain ⟨said, hsaid, -⟩ := st.step_done_speaks h
  cases hn : st.flow.node? sc.talk.node with
  | none =>
    rw [st.step_missing input sc hn] at h
    cases h
    refine ⟨[], (List.append_nil _).symm, ?_⟩
    rw [List.append_nil]
    cases stands with
    | heard heard => exact .heard heard
    | calm calm => exact .calm calm
    | fallen _ _ found =>
      rw [hn] at found
      cases found
  | some n =>
    obtain ⟨r, sc₁, he, hs⟩ := st.step_spec input sc hn
    -- a node that does not fail has its say before anything else follows
    have succeeds (fails : r.fails = false) {more : List Entry} (ran : results more = [r])
        (after : (st.say n.id r.text sc₁).Heard → sc'.Heard) :
        Ends st.flow (log ++ more) sc' := by
      cases hspoken : Text.spoken? r.text with
      | some t => exact .heard (after (st.say_heard n.id sc₁ hspoken))
      | none => exact stands.ends hsaid.heard ran fails hspoken
    rw [h] at hs
    cases hs with
    | concludes final =>
      obtain ⟨more, hmore, hr⟩ := he.appends (st.say_still n.id sc₁ r.text)
      have fails : r.fails = false := by simp [Result.fails, final]
      exact ⟨more, hmore, succeeds fails hr (Scene.closed_speaks st _ _).heard⟩
    | triesAgain fails =>
      obtain ⟨more, hmore, hr⟩ := he.appends (w := (st.excuse n.id r
        (st.say n.id r.text sc₁.counted)).world)
        ((st.say_still n.id sc₁.counted r.text).trans (st.excuse_still n.id _ r))
      refine ⟨more, hmore, ?_⟩
      rcases st.excuse_heard n.id sc₁.counted r error with heard | ⟨own, silent⟩
      · exact .heard heard
      · rcases stands.heard_or_mute with heard | mute
        · exact .heard (hsaid.heard heard)
        · refine .blank ?_ (mute.append (.of_results hr silent)) r ?_ fails own
          · simp [Scene.counted, he.complete, live]
          · rw [Journal.results_append, hr, List.getLast?_concat]
    | givesUp =>
      obtain ⟨more, hmore, -⟩ := he.appends ((st.say_still n.id sc₁.counted r.text).trans
        (st.handOff_still _ (.retriesExhausted n.id st.flow.settings.maxRetries) "max_retries"))
      exact ⟨more, hmore, .heard (st.handOff_heard _ _ _ handoff)⟩
    | stays fails | strays fails =>
      obtain ⟨more, hmore, hr⟩ := he.appends (st.say_still n.id sc₁ r.text)
      exact ⟨more, hmore, succeeds fails hr id⟩
    | arrives fails target =>
      obtain ⟨ran, hr, hran⟩ := he.moves (st.say_still n.id sc₁ r.text) target
      exact ⟨_, hran, succeeds fails (results_moved hr _ _ target) (st.move_speaks _ target).heard⟩

theorem drive_stands (error : Text.isBlankText st.flow.settings.errorMessage = false)
    (handoff : Text.isBlankText st.flow.settings.handoffMessage = false) (left : Nat)
    (input : Option String) (sc : Scene σ) {start : List Entry}
    (begins : ∃ log, sc.world.journal = start ++ log ∧ sc.talk.complete = false ∧
      Stands st.flow log sc) :
    ∃ log, (st.drive left input sc).2.world.journal = start ++ log ∧
      Ends st.flow log (st.drive left input sc).2 := by
  refine st.drive_induct
    (P := fun sc => ∃ log, sc.world.journal = start ++ log ∧ sc.talk.complete = false ∧
      Stands st.flow log sc)
    (Q := fun _ sc => ∃ log, sc.world.journal = start ++ log ∧ Ends st.flow log sc)
    ?_ ?_ ?_ left input sc begins
  · rintro input sc r sc' ⟨log, hlog, live, stands⟩ hs
    obtain ⟨more, hmore, ends⟩ := st.step_done_ends error handoff live stands hs
    exact ⟨log ++ more, by rw [hmore, hlog, List.append_assoc], ends⟩
  · rintro input sc sc' ⟨log, hlog, live, stands⟩ hs
    obtain ⟨more, hmore, stands'⟩ := st.step_goOn_stands stands hs
    obtain ⟨_, _, _, -, -, -, -, -, complete, -⟩ := st.step_goOn hs
    exact ⟨log ++ more, by rw [hmore, hlog, List.append_assoc], complete.trans live, stands'⟩
  · rintro input sc sc' ⟨log, hlog, live, stands⟩ hs
    obtain ⟨more, hmore, -⟩ := st.step_goOn_stands stands hs
    obtain ⟨rest, hrest, -⟩ := st.handOff_still sc'
      (.continuationLimit st.config.continuations) "continuation_limit"
    refine ⟨log ++ more ++ rest, ?_, .heard (st.handOff_heard _ _ _ handoff)⟩
    rw [proceed, hrest, hmore, hlog]
    simp

end Stage

/-- In a turn in which a node fails the agent says something other than blanks, and so does the
result; unless no node had anything to say, the last failure has moved the session to the fallback
and what was executed from there on has not failed. Where no node had anything to say and the last
one may be tried again, it is taken to have no text at all. -/
theorem failure_heard (e : Engine σ) (f : Flow) (s : Session μ) (w : World σ) (cue : Cue)
    (log : List Entry) (loaded : e.flow? s.flow = some f) (live : s.talk.complete = false)
    (error : Text.isBlankText f.settings.errorMessage = false)
    (handoff : Text.isBlankText f.settings.handoffMessage = false)
    (journal : (e.turn s w cue).2.2.journal = w.journal ++ log)
    (failed : ∃ r ∈ results log, r.fails = true)
    (own : (e.turn s w cue).2.1.talk.complete = false → Mute log →
      ∀ r, (results log).getLast? = some r → r.fails = true → r.text = none) :
    (∃ since, FallsSilent f log since ∧ results since ≠ []) ∨
    ∃ said, Voiced e s w (cue.heard s.talk.node) said (some (e.turn s w cue).1)
        (e.turn s w cue).2.1 (e.turn s w cue).2.2 ∧
      (∃ t ∈ said, t.role = .agent ∧ Text.isBlankText t.text = false) ∧
      ∃ text, (e.turn s w cue).1.text = some text ∧ Text.isBlankText text = false := by
  obtain ⟨quiet, hquiet, hq⟩ := e.opening_still s w cue
  have begins : Stands f quiet (e.opening s w cue) := .calm (.of_quiet hq) (.of_quiet hq)
  obtain ⟨log', hlog, ends⟩ := (e.stage f s).drive_stands error handoff e.config.continuations
    cue.input (e.opening s w cue) ⟨quiet, hquiet, by simp [live], begins⟩
  obtain ⟨said, hsaid, hvoices⟩ := (e.stage f s).drive_speaks e.config.continuations cue.input
    (e.opening s w cue)
  obtain ⟨hspoken, voiced⟩ := e.voiced_of_speaks s w loaded live rfl hsaid hvoices
  have hturn := e.turn_live s w cue loaded live
  have hlog' : log' = log := by
    rw [hturn] at journal
    exact List.append_cancel_left (hlog.symm.trans journal)
  subst hlog'
  cases ends with
  | heard heard =>
    obtain ⟨text, htext, hblank⟩ := heard
    rw [hspoken] at htext
    obtain ⟨t, ht, rfl⟩ := List.mem_map.mp htext
    refine .inr ⟨said, voiced, ⟨t, ht, voiced.agent t ht, hblank⟩, _, ?_,
      Text.isBlankText_intercalate htext hblank " "⟩
    exact (voiced.text _ rfl).2 (List.ne_nil_of_mem htext)
  | calm calm =>
    obtain ⟨r, hr, fails⟩ := failed
    rw [calm r hr] at fails
    cases fails
  | fallen since falls ran => exact .inl ⟨since, falls, ran⟩
  | blank live' mute r last fails hown =>
    rw [hturn] at own
    exact absurd (own live' mute r last fails) hown

/-- A failure on a node without words is excused in the words of the flow. -/
theorem desk_apologizes :
    let answer := deskEngine.turn deskSession ⟨.error "down", []⟩ (.words "hello" [])
    (∃ r ∈ results answer.2.2.journal, r.fails = true) ∧
      ∃ text, answer.1.text = some text ∧ Text.isBlankText text = false := by
  intro answer
  have hrun : (results answer.2.2.journal).map (fun r => (r.fails, r.text)) = [(true, none)] := by
    decide +kernel
  have failed : ∃ r ∈ results answer.2.2.journal, r.fails = true := by
    have hmem : (true, none) ∈ (results answer.2.2.journal).map (fun r => (r.fails, r.text)) := by
      simp [hrun]
    obtain ⟨r, hr, e⟩ := List.mem_map.mp hmem
    exact ⟨r, hr, congrArg Prod.fst e⟩
  have own : ∀ r, (results answer.2.2.journal).getLast? = some r → r.text = none := by
    intro r last
    have hmem := List.mem_map_of_mem (f := fun r => (r.fails, r.text)) (List.mem_of_getLast? last)
    rw [hrun, List.mem_singleton] at hmem
    exact congrArg Prod.snd hmem
  have heard := failure_heard deskEngine desk deskSession ⟨.error "down", []⟩ (.words "hello" [])
    answer.2.2.journal rfl rfl (by decide) (by decide) rfl failed
    fun _ _ r last _ => own r last
  rcases heard with ⟨_, falls, _⟩ | ⟨_, _, _, text, htext, hblank⟩
  · obtain ⟨_, _, _, _, _, fallback, _⟩ := falls.moved
    cases fallback
  · exact ⟨failed, text, htext, hblank⟩

def hall : Flow where
  document :=
    { id := "hall", name := "", version := "1.0.0", description := none
      settings :=
        { Flow.Settings.standard with maxRetries := 1, listens := false, fallback := some "name" }
      start := "desk"
      nodes := [.ofKind "desk" (.conversation .standard), .ofKind "name" (.extraction .standard)]
      createdAt := none, updatedAt := none }
  sound := by decide

def hallEngine : Engine (Except String String) :=
  { deskEngine with flows := [("hall", hall)] }

def hallSession : Session Unit := { deskSession with flow := "hall" }

/-- The first failure takes the session to the fallback, and the user hears nothing. -/
theorem hall_falls_silent :
    let answer := hallEngine.turn hallSession ⟨.error "down", []⟩ (.words "hello" [])
    hallEngine.flow? hallSession.flow = some hall ∧ hallSession.talk.complete = false ∧
      Text.isBlankText hall.settings.errorMessage = false ∧
      Text.isBlankText hall.settings.handoffMessage = false ∧
      (results answer.2.2.journal).map Result.fails = [true, false] ∧
      answer.2.1.talk.turns.map Turn.role = [.user] ∧ answer.1.text = none := by
  refine ⟨rfl, rfl, by decide, by decide, ?_⟩
  decide +kernel

end Dialogue
