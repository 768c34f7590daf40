import Dialogue.Proofs.Turn
/-!
The course of a turn: one execution after the other, each but the last followed by the transition
to the next. Main statement: the words of the user are heard by the first of them alone, and every
node that is reached is executed, unless the cap cuts the turn short.
-/
namespace Dialogue

open Journal (executions transitions)

namespace Prompt

inductive Probes : String → Prop where
  | judge (conditions : List String) (input : String) : Probes (judge conditions input)
  | extractAll (names : List String) (input : String) : Probes (extractAll names input)
  | extractOne (preamble : Option String) (wanted : Flow.Wanted) (input : String) :
      Probes (extractOne preamble wanted input)

/-- The last characters of a prompt; they tell a request for a reply from all others. -/
def close (prompt : String) : List Char := prompt.toList.reverse.take 2

theorem close_append (front : String) {back : String} (long : 2 ≤ back.toList.length) :
    close (front ++ back) = close back := by
  have within : 2 ≤ back.toList.reverse.length := by rwa [List.length_reverse]
  rw [close, String.toList_append, List.reverse_append, List.take_append_of_le_length within, close]

theorem close_reply (vars : Variables) (c : Flow.Conversation) (input : Option String) :
    close (reply vars c input) = ['.', 'e'] := by
  unfold reply
  rw [close_append _ (by decide +kernel)]
  decide +kernel

theorem close_probe {prompt : String} (h : Probes prompt) : close prompt ≠ ['.', 'e'] := by
  have other {front back : String} (long : 2 ≤ back.toList.length)
      (differs : close back ≠ ['.', 'e']) : close (front ++ back) ≠ ['.', 'e'] := by
    rwa [close_append front long]
  cases h with
  | judge =>
    unfold judge
    exact other (by decide +kernel) (by decide +kernel)
  | extractAll =>
    unfold extractAll
    exact other (by decide +kernel) (by decide +kernel)
  | extractOne =>
    unfold extractOne
    exact other (by decide +kernel) (by decide +kernel)

theorem not_probes_reply (vars : Variables) (c : Flow.Conversation) (input : Option String) :
    ¬ Probes (reply vars c input) :=
  fun h => close_probe h (close_reply vars c input)

end Prompt

namespace Flow

/-- Entered without words of the user, such a node has nowhere to go on to. -/
def NodeKind.rests : NodeKind → Bool
  | conversation c => c.speaksFirst
  | extraction _ | ending _ | transfer _ => true
  | call _ | split => false

end Flow

def Entry.Wordless (x : Entry) : Prop :=
  ∀ prompt context, x = .asked prompt context → ¬ Prompt.Probes prompt

theorem Entry.wordless_told (event : Event) : (Entry.told event).Wordless := by
  rintro _ _ ⟨⟩

theorem Entry.wordless_called (function : String) (parameters : Table Json.Value) :
    (Entry.called function parameters).Wordless := by
  rintro _ _ ⟨⟩

structure Entry.Aside (x : Entry) : Prop where
  quiet : x.isQuiet = true
  wordless : x.Wordless

/-- An entry stands before another one, or it is the same one, or it stands behind. -/
theorem Journal.split_cases {front rest before after : List Entry} {x y : Entry}
    (h : front ++ x :: rest = before ++ y :: after) :
    (∃ mid, front = before ++ y :: mid ∧ after = mid ++ x :: rest) ∨
      (front = before ∧ x = y ∧ rest = after) ∨
      ∃ mid, before = front ++ x :: mid ∧ rest = mid ++ y :: after := by
  rcases List.append_eq_append_iff.mp h with ⟨mid, hb, hr⟩ | ⟨mid, hf, ha⟩
  · cases mid with
    | nil =>
      obtain ⟨rfl, rfl⟩ := List.cons.inj hr
      exact .inr (.inl ⟨by rw [hb, List.append_nil], rfl, rfl⟩)
    | cons z mid =>
      obtain ⟨rfl, rfl⟩ := List.cons.inj hr
      exact .inr (.inr ⟨mid, hb, rfl⟩)
  · cases mid with
    | nil =>
      obtain ⟨rfl, rfl⟩ := List.cons.inj ha
      exact .inr (.inl ⟨by rw [hf, List.append_nil], rfl, rfl⟩)
    | cons z mid =>
      obtain ⟨rfl, rfl⟩ := List.cons.inj ha
      exact .inl ⟨mid, hf, rfl⟩

/-- A quiet stretch ends before an entry that is not quiet. -/
theorem Journal.split_quiet {front rest before after : List Entry} {x : Entry}
    (quiet : Journal.Quiet front) (loud : x.isQuiet = false)
    (h : front ++ rest = before ++ x :: after) :
    ∃ mid, before = front ++ mid ∧ rest = mid ++ x :: after := by
  rcases List.append_eq_append_iff.mp h with split | ⟨mid, hf, hr⟩
  · exact split
  · cases mid with
    | nil => exact ⟨[], by simp [hf], hr.symm⟩
    | cons y mid =>
      obtain ⟨rfl, -⟩ := List.cons.inj hr
      rw [quiet x (by rw [hf]; simp)] at loud
      cases loud

variable {σ μ : Type}

namespace World

def Adds (P : Entry → Prop) (w w' : World σ) : Prop :=
  ∃ log, w'.journal = w.journal ++ log ∧ ∀ x ∈ log, P x

variable {P : Entry → Prop} {w w' w'' : World σ}

theorem Adds.refl (w : World σ) : w.Adds P w := ⟨[], by simp, by simp⟩

theorem Adds.trans (h : w.Adds P w') (h' : w'.Adds P w'') : w.Adds P w'' := by
  obtain ⟨log, e, hlog⟩ := h
  obtain ⟨more, e', hmore⟩ := h'
  exact ⟨log ++ more, by rw [e', e, List.append_assoc],
    fun x hx => (List.mem_append.mp hx).elim (hlog x) (hmore x)⟩

theorem Adds.single {x : Entry} (hx : P x) (journal : w'.journal = w.journal ++ [x]) :
    w.Adds P w' :=
  ⟨[x], journal, fun _ hy => List.mem_singleton.mp hy ▸ hx⟩

end World

/-- Without words no edge is put to the generator. -/
theorem choose_unheard (s : Services σ) (n : Flow.Node) (vars : Variables) (w : World σ) :
    (choose s n none vars w).2 = w := by
  simp only [choose]
  split <;> rfl

namespace Run

theorem conversation_wordless (s : Services σ) (around : Surroundings) (n : Flow.Node)
    (c : Flow.Conversation) (vars : Variables) (w : World σ) :
    w.Adds Entry.Wordless (conversation s around n c none vars w).2.2 := by
  unfold conversation extractAll
  split
  · exact .refl w
  · dsimp only
    generalize vars.setAll (s.listing w.state []).entries n.id = vars
    have asked : w.Adds Entry.Wordless
        (s.ask (Prompt.reply vars c none) (some (context around n)) w).2 := by
      refine .single ?_ rfl
      rintro _ _ ⟨⟩
      exact Prompt.not_probes_reply _ c none
    generalize s.ask (Prompt.reply vars c none) (some (context around n)) w = x at asked ⊢
    obtain ⟨reply, w'⟩ := x
    cases reply with
    | error e => exact asked
    | ok reply =>
      dsimp only
      rwa [choose_unheard]

theorem call_wordless (s : Services σ) (around : Surroundings) (n : Flow.Node) (c : Flow.Call)
    (vars : Variables) (w : World σ) :
    w.Adds Entry.Wordless (call s around n c vars w).2.2 := by
  have announced : w.Adds Entry.Wordless (announce s around n c vars w).2 := by
    unfold announce
    split
    · exact .refl w
    · exact .single (Entry.wordless_told _) rfl
  have called (w : World σ) :
      w.Adds Entry.Wordless (s.call c.function (parameters vars c) w).2 := by
    unfold Services.call
    split
    · exact .refl w
    · exact .single (Entry.wordless_called _ _) rfl
  have both := announced.trans (called _)
  unfold call
  dsimp only
  split
  · split
    · next v w' hv =>
      rw [hv] at both
      simp only [returned, choose_unheard]
      exact both
    · next fault w' hfault =>
      rw [hfault] at both
      exact both
  · exact .refl w

theorem execute_wordless (s : Services σ) (around : Surroundings) (n : Flow.Node)
    (vars : Variables) (w : World σ) :
    w.Adds Entry.Wordless (execute s around n none vars w).2.2 := by
  unfold execute
  split
  · exact conversation_wordless s around n _ vars w
  · exact call_wordless s around n _ vars w
  · simp only [choose_unheard]
    exact .refl w
  · exact .refl w
  · exact .refl w
  · exact .refl w

/-- A node that rests succeeds, and leads nowhere. -/
theorem execute_rests (s : Services σ) (around : Surroundings) (n : Flow.Node)
    (vars : Variables) (w : World σ) (rests : n.kind.rests = true) :
    (execute s around n none vars w).1.fails = false ∧
      (execute s around n none vars w).1.next = none := by
  unfold execute
  cases hk : n.kind with
  | conversation c =>
    have first : c.speaksFirst = true := by rwa [hk] at rests
    simp only [conversation, first]
    exact ⟨rfl, rfl⟩
  | call c =>
    rw [hk] at rests
    cases rests
  | split =>
    rw [hk] at rests
    cases rests
  | ending e => exact ⟨rfl, rfl⟩
  | transfer t => exact ⟨rfl, rfl⟩
  | extraction x => exact ⟨rfl, rfl⟩

end Run

namespace Stage
variable (st : Stage σ)

theorem say_aside (node : String) (text : Option String) (sc : Scene σ) :
    sc.world.Adds Entry.Aside (st.say node text sc).world := by
  unfold say
  split
  · exact .refl _
  · exact .single ⟨rfl, Entry.wordless_told _⟩ rfl

theorem excuse_aside (node : String) (r : Result) (sc : Scene σ) :
    sc.world.Adds Entry.Aside (st.excuse node r sc).world := by
  unfold excuse
  split
  · exact st.say_aside node _ sc
  · exact .refl _

theorem handOff_aside (fault : Fault) (reason : String) (sc : Scene σ) :
    sc.world.Adds Entry.Aside (st.handOff fault reason sc).2.world :=
  st.say_aside _ _ sc

end Stage

/-- Where a step is the last one, only asides follow its execution. -/
theorem Settles.ends {st : Stage σ} {node : String} {r r' : Result} {sc sc' : Scene σ}
    (h : Settles st node r sc (.done r' sc')) (moves : r.next.isSome = true → r.waits = false) :
    sc.world.Adds Entry.Aside sc'.world := by
  cases h with
  | concludes | stays | strays => exact st.say_aside node _ sc
  | triesAgain => exact (st.say_aside node _ sc.counted).trans (st.excuse_aside node r _)
  | givesUp => exact (st.say_aside node _ sc.counted).trans (st.handOff_aside _ _ _)
  | arrives _ target next waits =>
    have still := moves (by rw [next]; rfl)
    rw [waits] at still
    cases still

/-- A step that goes on comes from a result that failed, or from one that leads somewhere. -/
theorem Settles.goes {st : Stage σ} {node : String} {r : Result} {sc sc' : Scene σ}
    (h : Settles st node r sc (.goOn sc')) :
    (∃ w, sc.world.Adds Entry.Aside w ∧ sc'.world.journal =
        w.journal ++ [.told (.entered st.session (some sc.talk.node) sc'.talk.node)]) ∧
      (st.flow.node? sc'.talk.node).isSome = true ∧ (r.fails = true ∨ r.next.isSome = true) := by
  cases h with
  | fallsBack fails _ target fallback =>
    refine ⟨⟨_, st.say_aside node r.text sc.counted, ?_⟩, st.flow.fallback_isSome fallback,
      .inl fails⟩
    rw [st.move_journal, st.say_node]
    rfl
  | goesOn _ target next found =>
    refine ⟨⟨_, st.say_aside node r.text sc, ?_⟩, found, .inr (by rw [next]; rfl)⟩
    rw [st.move_journal, st.say_node]
    rfl

inductive Leg (st : Stage σ) (input : Option String) (node : String) : List Entry → Prop where
  | intro (n : Flow.Node) (here : st.flow.node? node = some n) (r : Result)
      (before after : List Entry) (quiet : Journal.Quiet before)
      (unheard : input = none → ∀ x ∈ before, x.Wordless) (asides : ∀ x ∈ after, x.Aside) :
      Leg st input node (before ++ .ran node input r :: after)

namespace Leg
variable {st : Stage σ} {input : Option String} {node : String} {log : List Entry}

theorem executions_eq (h : Leg st input node log) : executions log = 1 := by
  obtain ⟨n, here, r, before, after, quiet, unheard, asides⟩ := h
  exact Journal.executions_ran_quiet quiet node input r fun x hx => (asides x hx).quiet

theorem transitions_eq (h : Leg st input node log) : transitions log = 0 := by
  obtain ⟨n, here, r, before, after, quiet, unheard, asides⟩ := h
  exact Journal.transitions_ran_quiet quiet node input r fun x hx => (asides x hx).quiet

theorem wordless (h : Leg st input node log) (none : input = none) : ∀ x ∈ log, x.Wordless := by
  obtain ⟨n, here, r, before, after, quiet, unheard, asides⟩ := h
  intro x hx
  rcases List.mem_append.mp hx with hx | hx
  · exact unheard none x hx
  · rcases List.mem_cons.mp hx with rfl | hx
    · rintro _ _ ⟨⟩
    · exact (asides x hx).wordless

/-- The only execution of a leg is that of its node. -/
theorem ran (h : Leg st input node log) {m : String} {i : Option String} {r : Result}
    {before after : List Entry} (split : log = before ++ .ran m i r :: after) :
    m = node ∧ i = input ∧ Journal.Quiet before ∧ ∀ x ∈ after, x.Aside := by
  obtain ⟨n, here, r', before', after', quiet, unheard, asides⟩ := h
  rcases Journal.split_cases split with ⟨mid, hb, -⟩ | ⟨rfl, hx, rfl⟩ | ⟨mid, -, ha⟩
  · cases quiet (.ran m i r) (by rw [hb]; simp)
  · cases hx
    exact ⟨rfl, rfl, quiet, asides⟩
  · cases (asides (.ran m i r) (by rw [ha]; simp)).quiet

theorem unmoved (h : Leg st input node log) {session source target : String}
    {before after : List Entry} :
    log ≠ before ++ .told (.entered session (some source) target) :: after := by
  rintro rfl
  have moves := h.transitions_eq
  rw [Journal.transitions_append, Journal.transitions_entered] at moves
  omega

end Leg

namespace Stage
variable (st : Stage σ)

/-- What is told around a node apart, its execution depends on the variables and the world. -/
theorem executed_eq (n : Flow.Node) (input : Option String) (sc : Scene σ) :
    ∃ around, let run := execute st.services around n input sc.talk.vars sc.world
      (st.executed n input sc).1 = run.1 ∧
        (st.executed n input sc).2.world = run.2.2.note (.ran n.id input run.1) := by
  refine ⟨⟨st.session, st.flow.settings, sc.talk.recent st.config.window⟩, ?_⟩
  unfold executed
  dsimp only
  split <;> exact ⟨rfl, rfl⟩

/-- The journal of an execution, and of asides after it. -/
theorem executed_leg {n : Flow.Node} (input : Option String) (sc : Scene σ)
    (here : st.flow.node? sc.talk.node = some n) {w : World σ}
    (after : (st.executed n input sc).2.world.Adds Entry.Aside w) :
    ∃ log, w.journal = sc.world.journal ++ log ∧ Leg st input sc.talk.node log := by
  obtain ⟨before, quiet, ran⟩ := (st.executed_spec n input sc).journal
  obtain ⟨rest, e, asides⟩ := after
  have hid := Flow.id_of_node? here
  refine ⟨before ++ .ran sc.talk.node input (st.executed n input sc).1 :: rest, ?_,
    .intro n here _ before rest quiet ?_ asides⟩
  · rw [e, ran, hid]
    simp
  · rintro rfl
    obtain ⟨around, hr, hw⟩ := st.executed_eq n none sc
    obtain ⟨log, e', wordless⟩ := Run.execute_wordless st.services around n sc.talk.vars sc.world
    -- the questions are those that the execution has journalled
    rw [hw, hr] at ran
    have same := e'.symm.trans (List.append_cancel_right ran)
    exact List.append_cancel_left same ▸ wordless

theorem step_ends {input : Option String} {sc sc' : Scene σ} {r : Result}
    (h : st.step input sc = .done r sc') :
    ∃ log, sc'.world.journal = sc.world.journal ++ log ∧
      ((st.flow.node? sc.talk.node = none ∧ log = []) ∨ Leg st input sc.talk.node log) := by
  cases here : st.flow.node? sc.talk.node with
  | none =>
    rw [st.step_missing input sc here] at h
    cases h
    exact ⟨[], by simp, .inl ⟨rfl, rfl⟩⟩
  | some n =>
    have settled := st.settle_settles n.id (st.executed n input sc).1 (st.executed n input sc).2
    simp only [step, here] at h
    rw [h] at settled
    obtain ⟨log, e, leg⟩ := st.executed_leg input sc here
      (settled.ends (st.executed_spec n input sc).fits.moves)
    exact ⟨log, e, .inr leg⟩

theorem step_goes {input : Option String} {sc sc' : Scene σ} (h : st.step input sc = .goOn sc') :
    ∃ log, sc'.world.journal = sc.world.journal ++ log ++
        [.told (.entered st.session (some sc.talk.node) sc'.talk.node)] ∧
      Leg st input sc.talk.node log ∧ (st.flow.node? sc'.talk.node).isSome = true ∧
      ∀ n, st.flow.node? sc.talk.node = some n → n.kind.rests = true → input ≠ none := by
  cases here : st.flow.node? sc.talk.node with
  | none =>
    rw [st.step_missing input sc here] at h
    cases h
  | some n =>
    have settled := st.settle_settles n.id (st.executed n input sc).1 (st.executed n input sc).2
    simp only [step, here] at h
    rw [h] at settled
    obtain ⟨⟨w, asides, e⟩, found, left⟩ := settled.goes
    obtain ⟨log, e', leg⟩ := st.executed_leg input sc here asides
    rw [(st.executed_spec n input sc).node] at e
    refine ⟨log, by rw [e, e'], leg, found, ?_⟩
    rintro _ ⟨⟩ rests rfl
    obtain ⟨around, hr, -⟩ := st.executed_eq n none sc
    obtain ⟨succeeds, nowhere⟩ := Run.execute_rests st.services around n sc.talk.vars sc.world rests
    rw [hr, succeeds, nowhere] at left
    simp at left

end Stage

/-- One execution after the other. They come to an end of their own, or they are cut short on a
node that is not executed any more. -/
inductive Course (st : Stage σ) : Option String → String → List Entry → Option String → Prop where
  | lost {input : Option String} {node : String} (missing : st.flow.node? node = none) :
      Course st input node [] none
  | ends {input : Option String} {node : String} {log : List Entry} (leg : Leg st input node log) :
      Course st input node log none
  | cut {node : String} {log : List Entry} (asides : ∀ x ∈ log, x.Aside) :
      Course st none node log (some node)
  | goesOn {input short : Option String} {node target : String} {log rest : List Entry}
      (leg : Leg st input node log)
      (left : ∀ n, st.flow.node? node = some n → n.kind.rests = true → input ≠ none)
      (found : (st.flow.node? target).isSome = true) (later : Course st none target rest short) :
      Course st input node (log ++ .told (.entered st.session (some node) target) :: rest) short

namespace Course
variable {st : Stage σ} {input short : Option String} {node : String} {log : List Entry}

theorem wordless (h : Course st input node log short) (none : input = none) :
    ∀ x ∈ log, x.Wordless := by
  induction h with
  | lost => simp
  | ends leg => exact leg.wordless none
  | cut asides => exact fun x hx => (asides x hx).wordless
  | goesOn leg _ _ _ ih =>
    intro x hx
    rcases List.mem_append.mp hx with hx | hx
    · exact leg.wordless none x hx
    · rcases List.mem_cons.mp hx with rfl | hx
      · exact Entry.wordless_told _
      · exact ih rfl x hx

/-- The first execution hears the words, if there are any, and the others hear none. What comes
after an execution is never about words, and it is quiet after a node that rests. -/
theorem hears (h : Course st input node log short) {m : String} {i : Option String} {r : Result}
    {before after : List Entry} (split : log = before ++ .ran m i r :: after) :
    i = (if executions before = 0 then input else none) ∧ (∀ x ∈ after, x.Wordless) ∧
      ∀ n, st.flow.node? m = some n → n.kind.rests = true → i = none → Journal.Quiet after := by
  induction h generalizing before with
  | lost => simp at split
  | ends leg =>
    obtain ⟨-, rfl, quiet, asides⟩ := leg.ran split
    exact ⟨by rw [Journal.executions_quiet quiet, if_pos rfl], fun x hx => (asides x hx).wordless,
      fun _ _ _ _ x hx => (asides x hx).quiet⟩
  | cut asides => cases (asides (.ran m i r) (by rw [split]; simp)).quiet
  | goesOn leg left found later ih =>
    -- the execution is that of the first leg, or it comes after the move
    rcases Journal.split_cases split with ⟨mid, hlog, rfl⟩ | ⟨-, ⟨⟩, -⟩ | ⟨mid, rfl, hrest⟩
    · obtain ⟨rfl, rfl, quiet, asides⟩ := leg.ran hlog
      refine ⟨by rw [Journal.executions_quiet quiet, if_pos rfl], ?_,
        fun n here rests unheard => absurd unheard (left n here rests)⟩
      intro x hx
      rcases List.mem_append.mp hx with hx | hx
      · exact (asides x hx).wordless
      · rcases List.mem_cons.mp hx with rfl | hx
        · exact Entry.wordless_told _
        · exact later.wordless rfl x hx
    · obtain ⟨unheard, wordless, last⟩ := ih hrest
      refine ⟨?_, wordless, last⟩
      rw [Journal.executions_append, leg.executions_eq, if_neg (by omega)]
      rwa [ite_self] at unheard

/-- A node that there is comes to be executed, unless the course is cut short on it. -/
theorem runs (h : Course st input node log short) (found : (st.flow.node? node).isSome = true) :
    (∃ between r rest, log = between ++ .ran node input r :: rest ∧ Journal.Quiet between) ∨
      short = some node ∧ Journal.Quiet log := by
  cases h with
  | lost missing =>
    rw [missing] at found
    cases found
  | ends leg =>
    obtain ⟨n, here, r, before, after, quiet, -, -⟩ := leg
    exact .inl ⟨before, r, after, rfl, quiet⟩
  | cut asides => exact .inr ⟨rfl, fun x hx => (asides x hx).quiet⟩
  | goesOn leg =>
    obtain ⟨n, here, r, before, after, quiet, -, -⟩ := leg
    exact .inl ⟨before, r, _, List.append_assoc _ _ _, quiet⟩

theorem moves (h : Course st input node log short) {session source target : String}
    {before after : List Entry}
    (split : log = before ++ .told (.entered session (some source) target) :: after) :
    (∃ between r rest, after = between ++ .ran target none r :: rest ∧ Journal.Quiet between) ∨
      short = some target ∧ Journal.Quiet after := by
  induction h generalizing before with
  | lost => simp at split
  | ends leg => exact absurd split leg.unmoved
  | cut asides =>
    cases (asides (.told (.entered session (some source) target)) (by rw [split]; simp)).quiet
  | goesOn leg _ found later ih =>
    rcases Journal.split_cases split with ⟨mid, hlog, -⟩ | ⟨-, ⟨⟩, rfl⟩ | ⟨mid, -, hrest⟩
    · exact absurd hlog leg.unmoved
    · exact later.runs found
    · exact ih hrest

end Course

structure CutShort (cap : Nat) (r : Result) (t : Talk) (node : String) : Prop where
  fault : r.fault = some (.continuationLimit cap)
  node : t.node = node
  complete : t.complete = true
  ended : t.ended = some "continuation_limit"

theorem Stage.drive_course (st : Stage σ) (left : Nat) (input : Option String) (sc : Scene σ) :
    ∃ log short, (st.drive left input sc).2.world.journal = sc.world.journal ++ log ∧
      Course st input sc.talk.node log short ∧ ∀ node, short = some node →
        CutShort st.config.continuations (st.drive left input sc).1
          (st.drive left input sc).2.talk node := by
  have ends {input sc r sc'} (h : st.step input sc = .done r sc') :
      ∃ log, sc'.world.journal = sc.world.journal ++ log ∧
        Course st input sc.talk.node log none := by
    obtain ⟨log, e, ⟨missing, rfl⟩ | leg⟩ := st.step_ends h
    · exact ⟨[], e, .lost missing⟩
    · exact ⟨log, e, .ends leg⟩
  induction left generalizing input sc with
  | zero =>
    cases hs : st.step input sc with
    | done r sc' =>
      obtain ⟨log, e, course⟩ := ends hs
      rw [st.drive_done hs]
      exact ⟨log, none, e, course, nofun⟩
    | goOn sc' =>
      obtain ⟨log, e, leg, found, left⟩ := st.step_goes hs
      obtain ⟨rest, e', asides⟩ := st.handOff_aside
        (.continuationLimit st.config.continuations) "continuation_limit" sc'
      rw [st.drive_goOn hs, proceed, e', e]
      refine ⟨_, some sc'.talk.node, by simp, .goesOn leg left found (.cut asides), ?_⟩
      rintro _ ⟨⟩
      exact ⟨by simp, by simp, by simp, by simp⟩
  | succ count ih =>
    cases hs : st.step input sc with
    | done r sc' =>
      obtain ⟨log, e, course⟩ := ends hs
      rw [st.drive_done hs]
      exact ⟨log, none, e, course, nofun⟩
    | goOn sc' =>
      obtain ⟨log, e, leg, found, left⟩ := st.step_goes hs
      obtain ⟨rest, short, e', later, cut⟩ := ih none sc'
      rw [st.drive_goOn hs, proceed, e', e]
      exact ⟨_, short, by simp, .goesOn leg left found later, cut⟩

/-- Only the node that is executed first hears the words of a turn. After its execution the
generator is not asked about words any more, and whatever rests without words is executed last. A
node that is come to is executed next, unless the turn is cut short on it. -/
theorem heard_once (e : Engine σ) (f : Flow) (s : Session μ) (cue : Cue) (w : World σ)
    (loaded : e.flow? s.flow = some f) (live : s.talk.complete = false) :
    let r := (e.turn s w cue).1
    let s' := (e.turn s w cue).2.1
    ∃ log, (e.turn s w cue).2.2.journal = w.journal ++ log ∧
      (∀ before node input result after, log = before ++ .ran node input result :: after →
        input = (if executions before = 0 then cue.input else none) ∧
        (∀ prompt context, .asked prompt context ∈ after → ¬ Prompt.Probes prompt) ∧
        ∀ n, f.node? node = some n → n.kind.rests = true → input = none →
          executions after = 0 ∧ transitions after = 0) ∧
      ∀ before session source target after,
        log = before ++ .told (.entered session (some source) target) :: after →
        (∃ between result rest, after = between ++ .ran target none result :: rest ∧
          executions between = 0 ∧ transitions between = 0) ∨
        CutShort e.config.continuations r s'.talk target ∧
          executions after = 0 ∧ transitions after = 0 := by
  obtain ⟨start, hstart, quiet⟩ := e.opening_still s w cue
  obtain ⟨log, short, hlog, course, cut⟩ := (e.stage f s).drive_course e.config.continuations
    cue.input (e.opening s w cue)
  rw [e.turn_live s w cue loaded live]
  refine ⟨start ++ log, by dsimp only; rw [hlog, hstart, List.append_assoc], ?_, ?_⟩
  · intro before node input result after split
    obtain ⟨mid, rfl, hlog⟩ := Journal.split_quiet quiet rfl split
    obtain ⟨heard, wordless, last⟩ := course.hears hlog
    rw [Journal.executions_append, Journal.executions_quiet quiet, Nat.zero_add]
    refine ⟨heard, fun prompt context asked => wordless _ asked prompt context rfl, ?_⟩
    intro n here rests unheard
    have quiet := last n here rests unheard
    exact ⟨Journal.executions_quiet quiet, Journal.transitions_quiet quiet⟩
  · intro before session source target after split
    obtain ⟨mid, rfl, hlog⟩ := Journal.split_quiet quiet rfl split
    rcases course.moves hlog with ⟨between, result, rest, hafter, quiet⟩ | ⟨hshort, quiet⟩
    · exact .inl ⟨between, result, rest, hafter, Journal.executions_quiet quiet,
        Journal.transitions_quiet quiet⟩
    · exact .inr ⟨cut target hshort, Journal.executions_quiet quiet,
        Journal.transitions_quiet quiet⟩

def reception : Flow where
  document :=
    { id := "reception", name := "", version := "1.0.0", description := none
      settings := .standard
      start := "welcome"
      nodes :=
        [(Flow.Node.ofKind "welcome" (.conversation { Flow.Conversation.standard with
            extracted := ["name"] })).addEdge ⟨"", "form", [], true, 0⟩,
          Flow.Node.ofKind "form" (.extraction ⟨[⟨"purpose", "", "string"⟩], none⟩)]
      createdAt := none, updatedAt := none }
  sound := by decide

def receptionEngine : Engine Unit :=
  ⟨.standard, [("reception", reception)],
    ⟨fun _ _ state => (.ok "Thanks.", state), [], none, [], fun _ => .asListed⟩⟩

def receptionSession : Session Unit :=
  ⟨"reception", "s", ⟨"welcome", .ofInitial [], [], 0, false, none⟩, none, .idle, none⟩

theorem reception_heard_once :
    receptionEngine.flow? receptionSession.flow = some reception ∧
      receptionSession.talk.complete = false ∧
      ∃ log, (receptionEngine.turn receptionSession ⟨(), []⟩ (.words "I am Sam." [])).2.2.journal =
          log ∧ executions log = 2 ∧
        ∀ before node input result after, log = before ++ .ran node input result :: after →
          input = if executions before = 0 then some "I am Sam." else none := by
  obtain ⟨log, hlog, heard, -⟩ := heard_once receptionEngine reception receptionSession
    (.words "I am Sam." []) ⟨(), []⟩ rfl rfl
  rw [List.nil_append] at hlog
  refine ⟨rfl, rfl, log, hlog, ?_, fun before node input result after split =>
    (heard before node input result after split).1⟩
  rw [← hlog]
  decide +kernel

end Dialogue
