import Dialogue.Proofs.Run
/-!
What the agent says on a request. Main statement: the words that are added to the history are those
that every observer is told, and joined they are the text of the result.
-/
namespace Dialogue

variable {σ μ : Type}

namespace Executes
variable {st : Stage σ} {n : Flow.Node} {input : Option String} {sc sc₁ : Scene σ} {r : Result}

theorem speaks (h : Executes st n input sc r sc₁) (text : Option String) :
    ∃ said, Speaks st said sc (st.say n.id text sc₁) :=
  ⟨_, h.voice.trans (st.say_speaks n.id sc₁ text)⟩

theorem speaks_counted (h : Executes st n input sc r sc₁) (text : Option String) :
    ∃ said, Speaks st said sc (st.say n.id text sc₁.counted) :=
  ⟨_, (h.voice.trans_silent (Scene.counted_speaks st sc₁)).trans (st.say_speaks n.id _ text)⟩

end Executes

namespace Stage
variable (st : Stage σ)

theorem step_goOn_speaks {input : Option String} {sc sc' : Scene σ}
    (h : st.step input sc = .goOn sc') : ∃ said, Speaks st said sc sc' := by
  cases hn : st.flow.node? sc.talk.node with
  | none =>
    rw [st.step_missing input sc hn] at h
    cases h
  | some n =>
    obtain ⟨r, sc₁, he, hs⟩ := st.step_spec input sc hn
    rw [h] at hs
    cases hs with
    | fallsBack _ _ target =>
      obtain ⟨said, hsay⟩ := he.speaks_counted r.text
      exact ⟨said, hsay.trans_silent (st.move_speaks _ target)⟩
    | goesOn _ target =>
      obtain ⟨said, hsay⟩ := he.speaks r.text
      exact ⟨said, hsay.trans_silent (st.move_speaks _ target)⟩

theorem step_done_speaks {input : Option String} {sc sc' : Scene σ} {r' : Result}
    (h : st.step input sc = .done r' sc') :
    ∃ said, Speaks st said sc sc' ∧ r'.Voices sc'.spoken := by
  cases hn : st.flow.node? sc.talk.node with
  | none =>
    rw [st.step_missing input sc hn] at h
    cases h
    exact ⟨[], .refl st sc, Result.joined_voices _ _ fun _ => rfl⟩
  | some n =>
    obtain ⟨r, sc₁, he, hs⟩ := st.step_spec input sc hn
    obtain ⟨said, hsay⟩ := he.speaks r.text
    obtain ⟨said', hsay'⟩ := he.speaks_counted r.text
    rw [h] at hs
    -- a text that has not gone on record is blank
    cases hs with
    | concludes =>
      refine ⟨said, hsay.trans_silent (Scene.closed_speaks st _ r.endReason), ?_⟩
      exact Result.joined_voices r _ fun hs => st.spoken?_of_say n.id sc₁ hs
    | triesAgain =>
      obtain ⟨more, hexcuse⟩ := st.excuse_speaks n.id (st.say n.id r.text sc₁.counted) r
      refine ⟨_, hsay'.trans hexcuse, Result.joined_voices _ _ fun hs => ?_⟩
      exact st.spoken?_of_say n.id sc₁.counted (hexcuse.spoken_nil hs)
    | givesUp =>
      obtain ⟨more, hoff⟩ := st.handOff_speaks (st.say n.id r.text sc₁.counted)
        (.retriesExhausted n.id st.flow.settings.maxRetries) "max_retries"
      exact ⟨_, hsay'.trans hoff, st.handOff_voices _ _ _⟩
    | stays =>
      exact ⟨said, hsay, Result.joined_voices r _ fun hs => st.spoken?_of_say n.id sc₁ hs⟩
    | strays => exact ⟨said, hsay, Result.joined_voices _ _ fun _ => rfl⟩
    | arrives _ target =>
      refine ⟨said, hsay.trans_silent (st.move_speaks _ target), ?_⟩
      exact Result.joined_voices r _ fun hs => st.spoken?_of_say n.id sc₁ hs

theorem drive_speaks (left : Nat) (input : Option String) (sc : Scene σ) :
    ∃ said, Speaks st said sc (st.drive left input sc).2 ∧
      (st.drive left input sc).1.Voices (st.drive left input sc).2.spoken := by
  refine st.drive_induct (P := fun sc' => ∃ said, Speaks st said sc sc')
    (Q := fun r sc' => ∃ said, Speaks st said sc sc' ∧ r.Voices sc'.spoken) ?_ ?_ ?_ left input sc
    ⟨[], .refl st sc⟩
  · rintro input sc₁ r sc₂ ⟨said, hsaid⟩ hs
    obtain ⟨more, hmore, hvoices⟩ := st.step_done_speaks hs
    exact ⟨_, hsaid.trans hmore, hvoices⟩
  · rintro input sc₁ sc₂ ⟨said, hsaid⟩ hs
    obtain ⟨more, hmore⟩ := st.step_goOn_speaks hs
    exact ⟨_, hsaid.trans hmore⟩
  · rintro input sc₁ sc₂ ⟨said, hsaid⟩ hs
    obtain ⟨more, hmore⟩ := st.step_goOn_speaks hs
    obtain ⟨rest, hrest⟩ := st.handOff_speaks sc₂
      (.continuationLimit st.config.continuations) "continuation_limit"
    exact ⟨_, (hsaid.trans hmore).trans hrest, st.handOff_voices _ _ _⟩

end Stage

def Cue.heard (node : String) : Cue → List Turn
  | start => []
  | words text facts => [⟨.user, text, node, facts⟩]

structure Voiced (e : Engine σ) (s : Session μ) (w : World σ) (heard said : List Turn)
    (result : Option Result) (s' : Session μ) (w' : World σ) : Prop where
  turns : s'.talk.turns = s.talk.turns ++ heard ++ said
  agent : ∀ t ∈ said, t.role = .agent
  told : ∃ events, e.services.Tells events w w' ∧
    events.filter Event.isSaid = said.map (Turn.event s.id)
  text : ∀ r, result = some r → r.Voices (said.map Turn.text)

theorem Voiced.silent {e : Engine σ} {s s' : Session μ} {w : World σ} {result : Option Result}
    (turns : s'.talk.turns = s.talk.turns) (text : ∀ r, result = some r → r.text = none) :
    Voiced e s w [] [] result s' w where
  turns := by simp [turns]
  agent := by simp
  told := ⟨[], .refl e.services w, rfl⟩
  text r hr := ⟨by simp [text r hr], fun h => absurd rfl h⟩

namespace Engine
variable (e : Engine σ) (s : Session μ) (w : World σ)

def cue? (f : Flow) : Request → Option Cue
  | .start => some .start
  | .text text => some (.words text [])
  | .frame bytes => (e.perceive f s w bytes).1.cue?

theorem opening_turns (cue : Cue) :
    (e.opening s w cue).talk.turns = s.talk.turns ++ cue.heard s.talk.node := by
  cases cue with
  | start => exact (List.append_nil _).symm
  | words text facts => rfl

theorem opening_spoken (cue : Cue) : (e.opening s w cue).spoken = [] := by
  cases cue <;> rfl

theorem opening_tells (cue : Cue) :
    ∃ events, e.services.Tells events w (e.opening s w cue).world ∧
      ∀ event ∈ events, event.isSaid = false := by
  cases cue with
  | start => exact ⟨_, .tell e.services _ w, by simp [Event.isSaid]⟩
  | words text facts => exact ⟨[], .refl e.services w, by simp⟩

theorem voiced_of_speaks {cue : Cue} {f : Flow} (loaded : e.flow? s.flow = some f)
    (live : s.talk.complete = false) {r : Result} {sc : Scene σ} {said : List Turn}
    (hdrive : (e.stage f s).drive e.config.continuations cue.input (e.opening s w cue) = (r, sc))
    (hsaid : Speaks (e.stage f s) said (e.opening s w cue) sc) (hvoices : r.Voices sc.spoken) :
    sc.spoken = said.map Turn.text ∧
      Voiced e s w (cue.heard s.talk.node) said (some (e.turn s w cue).1)
        (e.turn s w cue).2.1 (e.turn s w cue).2.2 := by
  have hspoken := hsaid.spoken
  rw [e.opening_spoken, List.nil_append] at hspoken
  rw [e.turn_live s w cue loaded live, hdrive]
  obtain ⟨before, hbefore, hother⟩ := e.opening_tells s w cue
  refine ⟨hspoken, ?_, hsaid.agent, hbefore.said_after hother hsaid.told, ?_⟩
  · rw [← e.opening_turns s w cue]
    exact hsaid.turns
  · rintro _ ⟨⟩
    rw [← hspoken]
    exact hvoices

theorem turn_voiced (cue : Cue) {f : Flow} (loaded : e.flow? s.flow = some f)
    (live : s.talk.complete = false) :
    ∃ said, Voiced e s w (cue.heard s.talk.node) said (some (e.turn s w cue).1)
      (e.turn s w cue).2.1 (e.turn s w cue).2.2 := by
  obtain ⟨said, hsaid, hvoices⟩ := (e.stage f s).drive_speaks e.config.continuations cue.input
    (e.opening s w cue)
  exact ⟨said, (e.voiced_of_speaks s w loaded live rfl hsaid hvoices).2⟩

theorem respond_voiced (f : Flow) (loaded : e.flow? s.flow = some f)
    (live : s.talk.complete = false) (perception : Perception) :
    ∃ said, Voiced e s w (perception.cue?.elim [] (Cue.heard s.talk.node)) said
      (e.respond f s w perception).1 (e.respond f s w perception).2.1
      (e.respond f s w perception).2.2 := by
  cases perception with
  | nothing => exact ⟨[], .silent rfl (by simp [respond])⟩
  | deaf | parked => exact ⟨[], .silent rfl (by rintro r ⟨⟩; rfl)⟩
  | words text u => exact e.turn_voiced s w (.words text (facts u)) loaded live
  | failed message =>
    let turn : Turn := ⟨.agent, f.settings.errorMessage, s.talk.node, []⟩
    refine ⟨[turn], ⟨by simp [respond, Perception.cue?, misheard, Talk.add, turn], by simp [turn],
      ⟨[turn.event s.id], .tell e.services _ w, rfl⟩, ?_⟩⟩
    rintro r ⟨⟩
    refine ⟨?_, fun _ => rfl⟩
    rintro ⟨⟩

end Engine

/-- Whatever is asked of a live session: the agent's words that it adds to the history, after the
user's if there are any, are those that every observer is told of, in their order; joined they are
the text of the result. -/
theorem said_as_recorded (e : Engine σ) (f : Flow) (s : Session μ) (w : World σ)
    (request : Request) (loaded : e.flow? s.flow = some f) (live : s.talk.complete = false) :
    ∃ said, Voiced e s w ((e.cue? s w f request).elim [] (Cue.heard s.talk.node)) said
      (e.answer s w request).1 (e.answer s w request).2.1 (e.answer s w request).2.2 := by
  cases request with
  | start => exact e.turn_voiced s w .start loaded live
  | text text => exact e.turn_voiced s w (.words text []) loaded live
  | frame bytes =>
    obtain ⟨talk, flow, id, -, before, hbefore, hother⟩ := e.perceive_attends f s w bytes
    have hframe := e.takeFrame_eq f s w loaded live bytes
    obtain ⟨said, turns, agent, told, text⟩ :=
      e.respond_voiced (e.perceive f s w bytes).2.1 (e.perceive f s w bytes).2.2 f
        (by rw [flow]; exact loaded) (by rw [talk]; exact live) (e.perceive f s w bytes).1
    rw [Engine.answer, hframe]
    rw [talk] at turns
    rw [id] at told
    exact ⟨said, turns, agent, hbefore.said_after hother told, text⟩

def shop : Flow where
  document :=
    { id := "shop", name := "", version := "1.0.0", description := none, settings := .standard
      start := "order"
      nodes := [(Flow.Node.ofKind "order" (.call ⟨"book", [], none, some "One moment.",
          some "Done.", none⟩)).addEdge ⟨"", "leave", [], true, 0⟩,
        .ofKind "leave" (.ending ⟨"Goodbye.", "completed"⟩)]
      createdAt := none, updatedAt := none }
  sound := by decide

def shopEngine : Engine (List Event) where
  config := .standard
  flows := [("shop", shop)]
  services :=
    { generate _ _ events := (.ok "", events)
      functions := [("book", fun _ events => (.ok .null, events))]
      transcriber := none
      observers := [.failing "down", .channel] }

def shopSession : Session Unit :=
  ⟨"shop", "s", ⟨"order", .ofInitial [], [], 0, false, none⟩, none, .idle, none⟩

theorem shop_records : shopEngine.services.Records id where
  generator _ _ _ := rfl
  functions name function h parameters state := by
    simp only [shopEngine, Table.get?_cons, Table.get?_nil] at h
    split at h <;> cases h
    rfl
  transcriber _ h := by cases h
  observers := ⟨[.failing "down"], .channel, [], rfl, by simp [Observer.failing], fun _ _ => rfl⟩

/-- All that is said reaches the observer behind the one that fails. -/
theorem shop_heard :
    let answer := shopEngine.answer shopSession ⟨[], []⟩ (.text "a table")
    let said := [("order", "One moment."), ("order", "Done."), ("leave", "Goodbye.")]
    shopEngine.flow? shopSession.flow = some shop ∧ shopSession.talk.complete = false ∧
      answer.2.2.state.filter Event.isSaid = said.map (fun x => .said "s" x.1 x.2) ∧
      answer.1.bind Result.text = some "One moment. Done. Goodbye." := by
  intro answer said
  obtain ⟨turns, voiced⟩ :=
    said_as_recorded shopEngine shop shopSession ⟨[], []⟩ (.text "a table") rfl rfl
  have hrun : answer.2.1.talk.turns.map (fun t => (t.node, t.text)) =
      ("order", "a table") :: said ∧ answer.1.isSome = true := by decide +kernel
  obtain ⟨hrecord, hanswered⟩ := hrun
  have hsaid : turns.map (fun t => (t.node, t.text)) = said := by
    have hturns := congrArg (List.map fun t => (t.node, t.text)) voiced.turns
    rw [hrecord] at hturns
    exact (List.cons.inj hturns).2.symm
  obtain ⟨events, htold, hfilter⟩ := voiced.told
  have hheard : answer.2.2.state = events := htold.heard id shop_records
  obtain ⟨r, hr⟩ := Option.isSome_iff_exists.mp hanswered
  have htexts : turns.map Turn.text = said.map Prod.snd := by rw [← hsaid, List.map_map]; rfl
  have htext := (voiced.text r hr).2 (by rw [htexts]; decide)
  refine ⟨rfl, rfl, ?_, ?_⟩
  · rw [hheard, hfilter, ← hsaid, List.map_map]
    rfl
  · rw [hr, Option.bind_some, htext, htexts]
    decide +kernel

end Dialogue
