import Dialogue.Cascade
import Dialogue.Proofs.Batch
import Dialogue.Proofs.Soundness
/-!
Services that answer alike. Their states correspond, and what is asked of both is answered the same;
observers make no difference to that. Each goes through hash maps in an order of its own. Main
statement: a turn comes out the same on both, whatever else is known about the words in it, but for
the order in which variables that are read off the words are logged.
-/
namespace Dialogue

open Dialogue.Flow (Node Edge Conversation Call Extraction Wanted)

variable {σ τ α : Type}

def Agree (R : σ → τ → Prop) (f : σ → α × σ) (g : τ → α × τ) : Prop :=
  ∀ x y, R x y → (f x).1 = (g y).1 ∧ R (f x).2 (g y).2

structure Services.Alike (R : σ → τ → Prop) (s : Services σ) (s' : Services τ) : Prop where
  generate : ∀ prompt context, Agree R (s.generate prompt context) (s'.generate prompt context)
  registered : ∀ name, s.functions.contains name = s'.functions.contains name
  functions : ∀ name f f', s.functions.get? name = some f → s'.functions.get? name = some f' →
    ∀ parameters, Agree R (f parameters) (f' parameters)
  observers : ∀ o ∈ s.observers, ∀ event x y, R x y → R (o event x).2 y
  observers' : ∀ o ∈ s'.observers, ∀ event x y, R x y → R x (o event y).2

def Twin (R : σ → τ → Prop) (x : α × World σ) (y : α × World τ) : Prop :=
  ∃ a w w', x = (a, w) ∧ y = (a, w') ∧ R w.state w'.state

def Twins (f : Flow) (R : σ → τ → Prop) (x : α × Variables × World σ)
    (y : α × Variables × World τ) : Prop :=
  ∃ a vars vars' w w', x = (a, vars, w) ∧ y = (a, vars', w') ∧ vars.Alike f vars' ∧
    R w.state w'.state

variable {f : Flow} {R : σ → τ → Prop} {s : Services σ} {s' : Services τ} {w : World σ}
  {w' : World τ}

theorem Twin.of {a : α} (states : R w.state w'.state) : Twin R (a, w) (a, w') :=
  ⟨a, w, w', rfl, rfl, states⟩

theorem Twin.intro {x : α × World σ} {y : α × World τ} (same : x.1 = y.1)
    (states : R x.2.state y.2.state) : Twin R x y :=
  ⟨x.1, x.2, y.2, rfl, Prod.ext same.symm rfl, states⟩

theorem Twins.of {a : α} {vars vars' : Variables} (same : vars.Alike f vars')
    (states : R w.state w'.state) : Twins f R (a, vars, w) (a, vars', w') :=
  ⟨a, vars, vars', w, w', rfl, rfl, same, states⟩

/-- A function of the values alone does not tell variables apart that are alike. -/
theorem Variables.Alike.congr {F : Variables → α} {vars vars' : Variables}
    (unlogged : ∀ vars : Variables, F vars = F (.ofInitial vars.values))
    (h : vars.Alike f vars') : F vars = F vars' := by
  rw [unlogged vars, unlogged vars', h.values]

theorem Choice.judged_unlogged (s : Services σ) (vars : Variables) (input : String)
    (edges : List Edge) (w : World σ) :
    judged s vars input edges w = judged s (.ofInitial vars.values) input edges w := by
  induction edges generalizing w with
  | nil => rfl
  | cons e rest ih =>
    have same : question? vars input e = question? (.ofInitial vars.values) input e := rfl
    unfold judged
    simp only [same, ih]

theorem choose_unlogged (s : Services σ) (n : Node) (input : Option String) (vars : Variables)
    (w : World σ) : choose s n input vars w = choose s n input (.ofInitial vars.values) w := by
  have holds : Choice.holds vars = Choice.holds (.ofInitial vars.values) := rfl
  unfold choose
  simp only [holds, Choice.judged_unlogged s vars]

namespace Services

theorem notify_left {observers : List (Observer σ)}
    (kept : ∀ o ∈ observers, ∀ event x y, R x y → R (o event x).2 y) (event : Event) {x : σ} {y : τ}
    (states : R x y) : R (notify observers event x) y := by
  induction observers generalizing x with
  | nil => exact states
  | cons o rest ih =>
    exact ih (fun o' ho' => kept o' (List.mem_cons_of_mem o ho'))
      (kept o List.mem_cons_self event x y states)

theorem notify_right {observers : List (Observer τ)}
    (kept : ∀ o ∈ observers, ∀ event x y, R x y → R x (o event y).2) (event : Event) {x : σ} {y : τ}
    (states : R x y) : R x (notify observers event y) := by
  induction observers generalizing y with
  | nil => exact states
  | cons o rest ih =>
    exact ih (fun o' ho' => kept o' (List.mem_cons_of_mem o ho'))
      (kept o List.mem_cons_self event x y states)

namespace Alike
variable (alike : s.Alike R s') (states : R w.state w'.state)
include alike states

theorem ask (prompt : String) (context : Option Context) :
    Twin R (s.ask prompt context w) (s'.ask prompt context w') := by
  obtain ⟨same, later⟩ := alike.generate prompt context _ _ states
  exact .intro same later

theorem call (name : String) (parameters : Table Json.Value) :
    Twin R (s.call name parameters w) (s'.call name parameters w') := by
  have registered := alike.registered name
  unfold Table.contains at registered
  unfold Services.call
  cases hf : s.functions.get? name with
  | none =>
    cases hf' : s'.functions.get? name with
    | none => exact .of states
    | some f' => simp [hf, hf'] at registered
  | some f =>
    cases hf' : s'.functions.get? name with
    | none => simp [hf, hf'] at registered
    | some f' =>
      obtain ⟨same, later⟩ := alike.functions name f f' hf hf' parameters _ _ states
      exact .intro (congrArg (Except.mapError (Fault.function name)) same) later

theorem tell_left (event : Event) : R (s.tell event w).state w'.state :=
  notify_left alike.observers event states

theorem tell (event event' : Event) : R (s.tell event w).state (s'.tell event' w').state :=
  notify_right alike.observers' event' (alike.tell_left states event)

end Alike
end Services

section
variable (alike : s.Alike R s') (states : R w.state w'.state)
include alike states

theorem judged_twin (vars : Variables) (input : String) (edges : List Edge) :
    Twin R (Choice.judged s vars input edges w) (Choice.judged s' vars input edges w') := by
  induction edges generalizing w w' with
  | nil => exact .of states
  | cons e rest ih =>
    unfold Choice.judged
    cases Choice.question? vars input e with
    | none => exact ih states
    | some question =>
      obtain ⟨answer, v, v', hask, hask', later⟩ := alike.ask states question none
      dsimp only
      rw [hask, hask']
      dsimp only
      cases Choice.isYes answer with
      | true => exact .of later
      | false => exact ih later

theorem choose_twin (n : Node) (input : Option String) {vars vars' : Variables}
    (same : vars.Alike f vars') :
    Twin R (choose s n input vars w) (choose s' n input vars' w') := by
  rw [← same.congr fun vars => choose_unlogged s' n input vars w']
  unfold choose
  dsimp only
  cases n.edgesInOrder.find? (Choice.holds vars) with
  | some e => exact .of states
  | none =>
    cases Text.spoken? input with
    | none => exact .of states
    | some input =>
      obtain ⟨met, v, v', hmet, hmet', later⟩ :=
        judged_twin alike states vars input n.edgesInOrder
      dsimp only
      rw [hmet, hmet']
      exact .of later

theorem extractAll_twin (c : Conversation) (input : Option String) :
    Twin R (Run.extractAll s c input w) (Run.extractAll s' c input w') := by
  unfold Run.extractAll
  cases input with
  | none => exact .of states
  | some input =>
    dsimp only
    cases c.extracted.isEmpty with
    | true => exact .of states
    | false =>
      obtain ⟨reply, v, v', hask, hask', later⟩ :=
        alike.ask states (Prompt.extractAll c.extracted input) none
      rw [hask, hask']
      cases reply <;> exact .of later

theorem conversation_twins (around : Surroundings) {n : Node} {c : Conversation}
    (found : f.node? n.id = some n) (kind : n.kind = .conversation c) (input : Option String)
    {vars vars' : Variables} (same : vars.Alike f vars') :
    Twins f R (Run.conversation s around n c input vars w)
      (Run.conversation s' around n c input vars' w') := by
  unfold Run.conversation
  cases input.isNone && c.speaksFirst with
  | true =>
    have shown : vars.interpolate = vars'.interpolate := same.congr fun _ => rfl
    rw [shown]
    exact .of same states
  | false =>
    have ordered := Run.ordered_extractAll s c input w
    have named (entry : String × Json.Value) (listed : entry ∈ (Run.extractAll s c input w).1) :
        entry.1 ∈ c.extracted := (Run.mem_extractAll listed).2.1
    obtain ⟨extracted, v, v', hextract, hextract', hv⟩ := extractAll_twin alike states c input
    rw [hextract] at ordered named
    rw [hextract, hextract']
    dsimp only
    have written := same.batch found kind ordered named (s.listing v.state extracted)
      (s'.listing v'.state extracted)
    generalize vars.setAll (s.listing v.state extracted).entries n.id = vars at written ⊢
    generalize vars'.setAll (s'.listing v'.state extracted).entries n.id = vars' at written ⊢
    have prompt : Prompt.reply vars c input = Prompt.reply vars' c input :=
      written.congr (F := fun vars => Prompt.reply vars c input) fun _ => rfl
    obtain ⟨reply, u, u', hask, hask', hu⟩ := alike.ask hv (Prompt.reply vars' c input)
      (some (Run.context around n))
    rw [prompt, hask, hask']
    cases reply with
    | error e => exact .of written hu
    | ok reply =>
      obtain ⟨next, t, t', hchoose, hchoose', ht⟩ := choose_twin alike hu n input written
      dsimp only
      rw [hchoose, hchoose']
      exact .of written ht

theorem returned_twins (n : Node) (c : Call) (notes : Table Json.Value) (v : Json.Value)
    {vars vars' : Variables} (same : vars.Alike f vars') :
    Twins f R (Run.returned s n c notes v vars w) (Run.returned s' n c notes v vars' w') := by
  have shown {vars vars' : Variables} (same : vars.Alike f vars') :
      vars.interpolateWith [("result", v)] = vars'.interpolateWith [("result", v)] :=
    same.congr (F := fun vars => vars.interpolateWith [("result", v)]) fun _ => rfl
  unfold Run.returned
  cases c.result with
  | none =>
    obtain ⟨next, t, t', hchoose, hchoose', ht⟩ := choose_twin alike states n none same
    dsimp only
    rw [hchoose, hchoose', shown same]
    exact .of same ht
  | some name =>
    have written := same.set name v n.id
    obtain ⟨next, t, t', hchoose, hchoose', ht⟩ := choose_twin alike states n none written
    dsimp only
    rw [hchoose, hchoose', shown written]
    exact .of written ht

theorem announce_twin (around : Surroundings) (n : Node) (c : Call) {vars vars' : Variables}
    (same : vars.Alike f vars') :
    Twin R (Run.announce s around n c vars w) (Run.announce s' around n c vars' w') := by
  have shown : vars.interpolate = vars'.interpolate := same.congr fun _ => rfl
  unfold Run.announce
  rw [shown]
  cases c.pendingMessage with
  | none => exact .of states
  | some pending => exact .of (alike.tell states _ _)

theorem call_twins (around : Surroundings) (n : Node) (c : Call) {vars vars' : Variables}
    (same : vars.Alike f vars') :
    Twins f R (Run.call s around n c vars w) (Run.call s' around n c vars' w') := by
  have excused : Run.apology vars = Run.apology vars' := same.congr fun _ => rfl
  have given : Run.parameters vars = Run.parameters vars' := same.congr fun _ => rfl
  unfold Run.call
  rw [alike.registered, excused, given]
  cases s'.functions.contains c.function with
  | false => exact .of same states
  | true =>
    obtain ⟨notes, v, v', hannounce, hannounce', hv⟩ := announce_twin alike states around n c same
    rw [hannounce, hannounce']
    obtain ⟨answer, u, u', hcall, hcall', hu⟩ :=
      alike.call hv c.function (Run.parameters vars' c)
    simp only [if_true]
    rw [hcall, hcall']
    cases answer with
    | error fault => exact .of same hu
    | ok value => exact returned_twins alike hu n c notes value same

theorem extractEach_twins (node : String) (preamble : Option String) (input : String)
    (wanted : List Wanted) (extracted : Table Json.Value) {vars vars' : Variables}
    (same : vars.Alike f vars') :
    Twins f R (Run.extractEach s node preamble input wanted extracted vars w)
      (Run.extractEach s' node preamble input wanted extracted vars' w') := by
  induction wanted generalizing extracted vars vars' w w' with
  | nil => exact .of same states
  | cons first rest ih =>
    unfold Run.extractEach
    obtain ⟨reply, v, v', hask, hask', hv⟩ :=
      alike.ask states (Prompt.extractOne preamble first input) none
    rw [hask, hask']
    dsimp only
    cases reply.toOption.bind (Extraction.coerce? first.type) with
    | none => exact ih hv extracted same
    | some value => exact ih hv _ (same.set first.name value node)

theorem extraction_twins (n : Node) (x : Extraction) (input : Option String)
    {vars vars' : Variables} (same : vars.Alike f vars') :
    Twins f R (Run.extraction s n x input vars w) (Run.extraction s' n x input vars' w') := by
  have shown : vars.interpolate = vars'.interpolate := same.congr fun _ => rfl
  unfold Run.extraction
  cases Text.spoken? input with
  | none => exact .of same states
  | some input =>
    obtain ⟨extracted, vars₁, vars₁', v, v', heach, heach', written, hv⟩ :=
      extractEach_twins alike states n.id (x.prompt.map vars'.interpolate) input x.wanted [] same
    dsimp only
    rw [shown, heach, heach']
    obtain ⟨next, t, t', hchoose, hchoose', ht⟩ := choose_twin alike hv n (some input) written
    dsimp only
    rw [hchoose, hchoose']
    exact .of written ht

/-- A node is executed with the same result, and with variables that are alike. -/
theorem execute_twins (around : Surroundings) {n : Node} (found : f.node? n.id = some n)
    (input : Option String) {vars vars' : Variables} (same : vars.Alike f vars') :
    Twins f R (execute s around n input vars w) (execute s' around n input vars' w') := by
  have shown : vars.interpolate = vars'.interpolate := same.congr fun _ => rfl
  unfold execute
  cases kind : n.kind with
  | conversation c => exact conversation_twins alike states around found kind input same
  | call c => exact call_twins alike states around n c same
  | split =>
    obtain ⟨next, t, t', hchoose, hchoose', ht⟩ := choose_twin alike states n none same
    dsimp only
    rw [hchoose, hchoose']
    exact .of same ht
  | ending e | transfer t =>
    dsimp only
    rw [shown]
    exact .of same states
  | extraction x => exact extraction_twins alike states n x input same

end

def Turn.plain (turn : Turn) : Turn := { turn with metadata := [] }

/-- The same conversation, but for what is known about the words and for the order in which a batch
of variables is logged. -/
structure Talk.Alike (f : Flow) (t t' : Talk) : Prop where
  node : t.node = t'.node
  vars : t.vars.Alike f t'.vars
  turns : t.turns.map Turn.plain = t'.turns.map Turn.plain
  retries : t.retries = t'.retries
  complete : t.complete = t'.complete
  ended : t.ended = t'.ended

namespace Talk.Alike
variable {t t' : Talk}

theorem refl (f : Flow) (t : Talk) : t.Alike f t := ⟨rfl, .refl f _, rfl, rfl, rfl, rfl⟩

theorem recent (h : t.Alike f t') (window : Nat) : t.recent window = t'.recent window := by
  have told (t : Talk) : t.recent window =
      ((t.turns.map Turn.plain).drop ((t.turns.map Turn.plain).length - window)).map
        fun turn => ⟨turn.role.name, turn.text⟩ := by
    rw [Talk.recent, List.length_map, ← List.map_drop, List.map_map]
    rfl
  rw [told t, told t', h.turns]

/-- The same words on the same node. -/
theorem add (h : t.Alike f t') {turn turn' : Turn} (same : turn.plain = turn'.plain) :
    (t.add turn).Alike f (t'.add turn') := by
  refine ⟨h.node, h.vars, ?_, h.retries, h.complete, h.ended⟩
  simp only [Talk.add, List.map_append, h.turns, List.map_cons, same]

theorem close (h : t.Alike f t') (reason : String) : (t.close reason).Alike f (t'.close reason) :=
  ⟨h.node, h.vars, h.turns, h.retries, rfl, rfl⟩

end Talk.Alike

structure Scene.Alike (f : Flow) (R : σ → τ → Prop) (sc : Scene σ) (sc' : Scene τ) : Prop where
  talk : sc.talk.Alike f sc'.talk
  spoken : sc.spoken = sc'.spoken
  states : R sc.world.state sc'.world.state

def Scene.Meet (f : Flow) (R : σ → τ → Prop) (x : Result × Scene σ) (y : Result × Scene τ) : Prop :=
  ∃ r sc sc', x = (r, sc) ∧ y = (r, sc') ∧ Scene.Alike f R sc sc'

inductive Step.Alike (f : Flow) (R : σ → τ → Prop) : Step σ → Step τ → Prop where
  | done (r : Result) {sc : Scene σ} {sc' : Scene τ} (scenes : sc.Alike f R sc') :
    Alike f R (.done r sc) (.done r sc')
  | goOn {sc : Scene σ} {sc' : Scene τ} (scenes : sc.Alike f R sc') :
    Alike f R (.goOn sc) (.goOn sc')

namespace Scene.Alike
variable {sc : Scene σ} {sc' : Scene τ} (h : sc.Alike f R sc')
include h

theorem record (node text : String) : (sc.record node text).Alike f R (sc'.record node text) :=
  ⟨h.talk.add rfl, congrArg (· ++ [text]) h.spoken, h.states⟩

theorem counted : sc.counted.Alike f R sc'.counted where
  talk := { h.talk with retries := congrArg (· + 1) h.talk.retries }
  spoken := h.spoken
  states := h.states

theorem closed (reason : String) : (sc.closed reason).Alike f R (sc'.closed reason) :=
  ⟨h.talk.close reason, h.spoken, h.states⟩

theorem finish (r : Result) : Step.Alike f R (sc.finish r) (sc'.finish r) := by
  unfold Scene.finish
  rw [h.spoken]
  exact .done _ h

end Scene.Alike

namespace Stage

def servedBy (st : Stage σ) (s' : Services τ) : Stage τ := ⟨s', st.config, st.flow, st.session⟩

variable {st : Stage σ}

@[simp] theorem servedBy_services : (st.servedBy s').services = s' := rfl

@[simp] theorem servedBy_session : (st.servedBy s').session = st.session := rfl

@[simp] theorem servedBy_config : (st.servedBy s').config = st.config := rfl

@[simp] theorem servedBy_flow : (st.servedBy s').flow = st.flow := rfl

@[simp] theorem servedBy_fallback : (st.servedBy s').fallback? = st.fallback? := rfl

variable {sc : Scene σ} {sc' : Scene τ} (alike : st.services.Alike R s') (h : sc.Alike st.flow R sc')
include alike h

theorem say_alike (node : String) (text : Option String) :
    (st.say node text sc).Alike st.flow R ((st.servedBy s').say node text sc') := by
  unfold say
  cases Text.spoken? text with
  | none => exact h
  | some text =>
    have recorded := h.record node text
    exact ⟨recorded.talk, recorded.spoken, alike.tell recorded.states _ _⟩

theorem move_alike (target : String) :
    (st.move target sc).Alike st.flow R ((st.servedBy s').move target sc') where
  talk := ⟨rfl, h.talk.vars, h.talk.turns, rfl, h.talk.complete, h.talk.ended⟩
  spoken := h.spoken
  states := by
    unfold move
    rw [← h.talk.node]
    exact alike.tell h.states _ _

theorem handOff_meet (fault : Fault) (reason : String) :
    Scene.Meet st.flow R (st.handOff fault reason sc) ((st.servedBy s').handOff fault reason sc') := by
  have said := say_alike alike h sc.talk.node (some st.flow.settings.handoffMessage)
  have closed := said.closed reason
  unfold handOff
  rw [← h.talk.node]
  dsimp only
  rw [servedBy_flow, closed.spoken]
  exact ⟨_, _, _, rfl, rfl, closed⟩

theorem conclude_alike (node : String) (r : Result) :
    Step.Alike st.flow R (st.conclude node r sc) ((st.servedBy s').conclude node r sc') :=
  ((say_alike alike h node r.text).closed r.endReason).finish r

theorem excuse_alike (node : String) (r : Result) :
    (st.excuse node r sc).Alike st.flow R ((st.servedBy s').excuse node r sc') := by
  unfold excuse
  cases r.text.isNone with
  | true => exact say_alike alike h node _
  | false => exact h

theorem retry_alike (node : String) (r : Result) :
    Step.Alike st.flow R (st.retry node r sc) ((st.servedBy s').retry node r sc') := by
  have said := say_alike alike h.counted node r.text
  unfold retry
  dsimp only
  rw [← said.talk.retries, servedBy_flow, servedBy_fallback]
  by_cases more : (st.say node r.text sc.counted).talk.retries < st.flow.settings.maxRetries
  · rw [if_pos more, if_pos more]
    exact (excuse_alike alike said node r).finish _
  · rw [if_neg more, if_neg more]
    cases st.fallback? with
    | some target => exact .goOn (move_alike alike said target)
    | none =>
      obtain ⟨result, end₁, end₂, hhand, hhand', scenes⟩ :=
        handOff_meet alike said (.retriesExhausted node st.flow.settings.maxRetries) "max_retries"
      dsimp only
      rw [hhand, hhand']
      exact .done result scenes

theorem follow_alike (node : String) (r : Result) :
    Step.Alike st.flow R (st.follow node r sc) ((st.servedBy s').follow node r sc') := by
  have said := say_alike alike h node r.text
  unfold follow
  cases r.next with
  | none => exact said.finish r
  | some target =>
    have moved := move_alike alike said target
    dsimp only
    rw [servedBy_flow]
    cases (st.flow.node? target).isNone with
    | true => exact said.finish _
    | false =>
      cases r.waits with
      | true => exact moved.finish r
      | false => exact .goOn moved

theorem settle_alike (node : String) (r : Result) :
    Step.Alike st.flow R (st.settle node r sc) ((st.servedBy s').settle node r sc') := by
  unfold settle
  cases r.isFinal with
  | true => exact conclude_alike alike h node r
  | false =>
    cases r.isStuck with
    | true => exact retry_alike alike h node r
    | false => exact follow_alike alike h node r

theorem executed_meet {n : Node} (found : st.flow.node? n.id = some n) (input : Option String) :
    Scene.Meet st.flow R (st.executed n input sc) ((st.servedBy s').executed n input sc') := by
  unfold executed
  dsimp only
  rw [servedBy_services, servedBy_session, servedBy_config, servedBy_flow, ← h.talk.recent]
  obtain ⟨r, vars, vars', v, v', hrun, hrun', written, states⟩ := execute_twins alike h.states
    ⟨st.session, st.flow.settings, sc.talk.recent st.config.window⟩ found input h.talk.vars
  rw [hrun, hrun']
  have ran : Scene.Alike st.flow R
      ⟨{ sc.talk with vars }, sc.spoken, v.note (.ran n.id input r)⟩
      ⟨{ sc'.talk with vars := vars' }, sc'.spoken, v'.note (.ran n.id input r)⟩ :=
    ⟨{ h.talk with vars := written }, h.spoken, states⟩
  dsimp only
  cases r.note? "pending_message" with
  | none => exact ⟨r, _, _, rfl, rfl, ran⟩
  | some text => exact ⟨r, _, _, rfl, rfl, ran.record n.id text⟩

/-- A step comes out the same. -/
theorem step_alike (input : Option String) :
    Step.Alike st.flow R (st.step input sc) ((st.servedBy s').step input sc') := by
  unfold step
  rw [servedBy_flow, ← h.talk.node]
  cases here : st.flow.node? sc.talk.node with
  | none => exact h.finish _
  | some n =>
    have found : st.flow.node? n.id = some n := by rw [Flow.id_of_node? here, here]
    obtain ⟨r, after, after', hrun, hrun', scenes⟩ := executed_meet alike h found input
    dsimp only
    rw [hrun, hrun']
    exact settle_alike alike scenes n.id r

/-- And so does a turn. -/
theorem drive_meet (left : Nat) (input : Option String) :
    Scene.Meet st.flow R (st.drive left input sc) ((st.servedBy s').drive left input sc') := by
  induction left generalizing input sc sc' with
  | zero =>
    have steps := step_alike alike h input
    unfold drive
    generalize st.step input sc = x at steps
    generalize (st.servedBy s').step input sc' = y at steps
    cases steps with
    | done r scenes => exact ⟨r, _, _, rfl, rfl, scenes⟩
    | goOn scenes => exact handOff_meet alike scenes _ _
  | succ left ih =>
    have steps := step_alike alike h input
    unfold drive
    generalize st.step input sc = x at steps
    generalize (st.servedBy s').step input sc' = y at steps
    cases steps with
    | done r scenes => exact ⟨r, _, _, rfl, rfl, scenes⟩
    | goOn scenes => exact ih scenes none

end Stage
end Dialogue
