import Dialogue.Flow.Document
import Dialogue.Proofs.Execution
/-!
The edge by which a node is left, said by the order of the edges. Main statement: the first edge
whose equations hold is taken, else the first to which the generator says yes, else the first
default one; the generator is asked no more than it takes to find this out.
-/
namespace Dialogue

open Dialogue.Flow (Node Edge Document)

namespace Flow

structure Node.Ranks (n : Node) (edges : List Edge) : Prop where
  same : edges.Perm n.edges
  ascending : edges.Pairwise fun a b => a.priority ≤ b.priority
  stable : ∀ p, (edges.filter fun e => e.priority = p) = n.edges.filter fun e => e.priority = p

def Edge.Unreadable (e : Edge) (message : String) : Prop :=
  ∃ text ∈ e.texts .byEquation, ∃ fault, Condition.ofText text = .error fault ∧
    fault.message = message

/-- The edges that a sort moves past one another differ in priority. -/
theorem Node.edgesInOrder_ranks (n : Node) : n.Ranks n.edgesInOrder := by
  have trans (a b c : Edge) (hab : decide (a.priority ≤ b.priority) = true)
      (hbc : decide (b.priority ≤ c.priority) = true) :
      decide (a.priority ≤ c.priority) = true := by
    simp only [decide_eq_true_eq] at hab hbc ⊢
    omega
  have total (a b : Edge) :
      (decide (a.priority ≤ b.priority) || decide (b.priority ≤ a.priority)) = true := by
    simp only [Bool.or_eq_true, decide_eq_true_eq]
    omega
  have perm : n.edgesInOrder.Perm n.edges := List.mergeSort_perm _ _
  refine ⟨perm, ?_, fun p => ?_⟩
  · exact (List.pairwise_mergeSort trans total n.edges).imp fun h => of_decide_eq_true h
  · have level : (n.edges.filter fun e => e.priority = p).Pairwise fun a b =>
        decide (a.priority ≤ b.priority) = true := by
      refine List.pairwise_filter.mpr (List.pairwise_of_forall fun a b ha hb => ?_)
      rw [of_decide_eq_true ha, of_decide_eq_true hb]
      exact decide_eq_true (Int.le_refl p)
    have kept := (List.sublist_mergeSort trans total level List.filter_sublist).filter
      fun e => decide (e.priority = p)
    rw [List.filter_filter] at kept
    simp only [Bool.and_self] at kept
    exact (kept.eq_of_length (perm.filter _).length_eq.symm).symm

theorem Document.mem_warnings (d : Document) (node edge message : String) :
    .unreadableEquation node edge message ∈ d.warnings ↔
      ∃ n ∈ d.nodes, ∃ e ∈ n.edges, n.id = node ∧ e.id = edge ∧ e.Unreadable message := by
  simp only [Document.warnings, List.mem_append, List.mem_flatMap, List.mem_filterMap]
  constructor
  · rintro (⟨n, hn, e, he, text, ht, warned⟩ | settings)
    · cases read : Condition.ofText text with
      | ok condition =>
        rw [read] at warned
        cases warned
      | error fault =>
        rw [read] at warned
        cases warned
        exact ⟨n, hn, e, he, rfl, rfl, text, ht, fault, read, rfl⟩
    · simp at settings
  · rintro ⟨n, hn, e, he, rfl, rfl, text, ht, fault, read, rfl⟩
    exact .inl ⟨n, hn, e, he, text, ht, by rw [read]⟩

end Flow

variable {σ : Type}

namespace Choice

def Meets (vars : Variables) (e : Edge) : Prop :=
  e.texts .byEquation ≠ [] ∧ ∀ text ∈ e.texts .byEquation, vars.satisfies text = true

def Affirms (reply : Except String String) : Prop :=
  ∃ answer rest, reply = .ok answer ∧ (Text.trimmed answer).toLower = "yes" ++ rest

def question (vars : Variables) (input : String) (e : Edge) : String :=
  Prompt.judge ((e.texts .byPrompt).map vars.interpolate) input

inductive Declined (s : Services σ) (vars : Variables) (input : String) :
    List Edge → List String → World σ → World σ → Prop where
  | nil (w : World σ) : Declined s vars input [] [] w w
  | pass {e : Edge} {edges : List Edge} {asked : List String} {w w' : World σ}
      (bare : e.texts .byPrompt = []) (rest : Declined s vars input edges asked w w') :
      Declined s vars input (e :: edges) asked w w'
  | ask {e : Edge} {edges : List Edge} {asked : List String} {w w' : World σ}
      (conditions : e.texts .byPrompt ≠ [])
      (no : ¬ Affirms (s.ask (question vars input e) none w).1)
      (rest : Declined s vars input edges asked (s.ask (question vars input e) none w).2 w') :
      Declined s vars input (e :: edges) (question vars input e :: asked) w w'

inductive Unheeded (s : Services σ) (edges : List Edge) (input : Option String)
    (vars : Variables) (w : World σ) : List String → World σ → Prop where
  | silent (silent : ∀ text, input = some text → Text.isBlankText text = true) :
      Unheeded s edges input vars w [] w
  | declined {text : String} {asked : List String} {w' : World σ} (said : input = some text)
      (spoken : Text.isBlankText text = false) (declined : Declined s vars text edges asked w w') :
      Unheeded s edges input vars w asked w'

/-- Where a node is left for, among edges in order, and the questions that it takes. -/
inductive Departs (s : Services σ) (edges : List Edge) (input : Option String) (vars : Variables)
    (w : World σ) : List String → Option String → World σ → Prop where
  | byEquation {before after : List Edge} {e : Edge} (order : edges = before ++ e :: after)
      (earlier : ∀ x ∈ before, ¬ Meets vars x) (meets : Meets vars e) :
      Departs s edges input vars w [] (some e.target) w
  | byPrompt (unmet : ∀ x ∈ edges, ¬ Meets vars x) {text : String} (said : input = some text)
      (spoken : Text.isBlankText text = false) {before after : List Edge} {e : Edge}
      (order : edges = before ++ e :: after) {asked : List String} {w' : World σ}
      (earlier : Declined s vars text before asked w w') (conditions : e.texts .byPrompt ≠ [])
      (yes : Affirms (s.ask (question vars text e) none w').1) :
      Departs s edges input vars w (asked ++ [question vars text e]) (some e.target)
        (s.ask (question vars text e) none w').2
  | byDefault (unmet : ∀ x ∈ edges, ¬ Meets vars x) {asked : List String} {w' : World σ}
      (unheeded : Unheeded s edges input vars w asked w') {before after : List Edge} {e : Edge}
      (order : edges = before ++ e :: after) (earlier : ∀ x ∈ before, x.isDefault = false)
      (isDefault : e.isDefault = true) :
      Departs s edges input vars w asked (some e.target) w'
  | nowhere (unmet : ∀ x ∈ edges, ¬ Meets vars x) {asked : List String} {w' : World σ}
      (unheeded : Unheeded s edges input vars w asked w')
      (none : ∀ x ∈ edges, x.isDefault = false) :
      Departs s edges input vars w asked .none w'

theorem holds_iff (vars : Variables) (e : Edge) : holds vars e = true ↔ Meets vars e := by
  simp [holds, Meets]

theorem isYes_iff (reply : Except String String) : isYes reply = true ↔ Affirms reply := by
  unfold isYes Affirms
  cases reply with
  | error message => simp
  | ok answer =>
    dsimp only
    rw [List.isPrefixOf_iff_prefix]
    constructor
    · rintro ⟨rest, yes⟩
      refine ⟨answer, String.ofList rest, rfl, String.toList_inj.mp ?_⟩
      have tail : (String.ofList rest).toList = rest := String.toList_ofList
      rw [String.toList_append, tail, yes]
    · rintro ⟨_, rest, ⟨⟩, yes⟩
      exact ⟨rest.toList, by rw [yes, String.toList_append]⟩

theorem question?_eq_none {vars : Variables} {input : String} {e : Edge} :
    question? vars input e = none ↔ e.texts .byPrompt = [] := by
  unfold question?
  split
  · next bare => simp [bare]
  · next conditions => simpa using conditions

theorem question?_eq_some {vars : Variables} {input : String} {e : Edge} {text : String}
    (asks : question? vars input e = some text) :
    e.texts .byPrompt ≠ [] ∧ text = question vars input e := by
  unfold question? at asks
  split at asks
  · cases asks
  · next conditions => exact ⟨conditions, (Option.some.inj asks).symm⟩

theorem not_meets_of_unreadable {e : Edge} {message : String} (h : e.Unreadable message)
    (vars : Variables) : ¬ Meets vars e := by
  obtain ⟨text, equation, fault, read, -⟩ := h
  intro meets
  have held := meets.2 text equation
  rw [Variables.satisfies, read] at held
  cases held

variable {s : Services σ} {vars : Variables} {input : String} {edges : List Edge}
  {asked : List String} {w w' : World σ}

theorem Declined.journal (h : Declined s vars input edges asked w w') :
    w'.journal = w.journal ++ asked.map fun text => .asked text none := by
  induction h with
  | nil w => rw [List.map_nil, List.append_nil]
  | pass bare rest ih => exact ih
  | ask conditions no rest ih =>
    rw [ih, List.map_cons, List.append_cons]
    rfl

/-- The edges are gone through until one is affirmed. -/
theorem judged_spec (s : Services σ) (vars : Variables) (input : String) (edges : List Edge)
    (w : World σ) :
    (∃ asked, Declined s vars input edges asked w (judged s vars input edges w).2 ∧
      (judged s vars input edges w).1 = none) ∨
    ∃ before e after asked w', edges = before ++ e :: after ∧
      Declined s vars input before asked w w' ∧ e.texts .byPrompt ≠ [] ∧
      Affirms (s.ask (question vars input e) none w').1 ∧
      judged s vars input edges w = (some e, (s.ask (question vars input e) none w').2) := by
  induction edges generalizing w with
  | nil => exact .inl ⟨[], .nil w, rfl⟩
  | cons e rest ih =>
    cases asks : question? vars input e with
    | none =>
      have bare := question?_eq_none.mp asks
      have skipped : judged s vars input (e :: rest) w = judged s vars input rest w := by
        rw [judged, asks]
      rw [skipped]
      rcases ih w with ⟨asked, declined, unmet⟩ | ⟨before, e', after, asked, w', order, declined, h⟩
      · exact .inl ⟨asked, .pass bare declined, unmet⟩
      · exact .inr ⟨e :: before, e', after, asked, w', by rw [order]; rfl, .pass bare declined, h⟩
    | some text =>
      obtain ⟨conditions, rfl⟩ := question?_eq_some asks
      by_cases yes : Affirms (s.ask (question vars input e) none w).1
      · have found : judged s vars input (e :: rest) w =
            (some e, (s.ask (question vars input e) none w).2) := by
          rw [judged, asks]
          exact if_pos ((isYes_iff _).mpr yes)
        exact .inr ⟨[], e, rest, [], w, rfl, .nil w, conditions, yes, found⟩
      · have passed : judged s vars input (e :: rest) w =
            judged s vars input rest (s.ask (question vars input e) none w).2 := by
          rw [judged, asks]
          exact if_neg (mt (isYes_iff _).mp yes)
        rw [passed]
        rcases ih (s.ask (question vars input e) none w).2 with
          ⟨asked, declined, unmet⟩ | ⟨before, e', after, asked, w', order, declined, h⟩
        · exact .inl ⟨_ :: asked, .ask conditions yes declined, unmet⟩
        · exact .inr ⟨e :: before, e', after, _ :: asked, w', by rw [order]; rfl,
            .ask conditions yes declined, h⟩

theorem find?_default (edges : List Edge) :
    (edges.find? Edge.isDefault = none ∧ ∀ x ∈ edges, x.isDefault = false) ∨
    ∃ before e after, edges.find? Edge.isDefault = some e ∧ edges = before ++ e :: after ∧
      (∀ x ∈ before, x.isDefault = false) ∧ e.isDefault = true := by
  cases found : edges.find? Edge.isDefault with
  | none => exact .inl ⟨rfl, by simpa using found⟩
  | some e =>
    obtain ⟨isDefault, before, after, order, earlier⟩ := List.find?_eq_some_iff_append.mp found
    exact .inr ⟨before, e, after, rfl, order, by simpa using earlier, isDefault⟩

/-- Where the generator has found no edge, a default one is taken. -/
theorem Unheeded.departs {input : Option String} (unmet : ∀ x ∈ edges, ¬ Meets vars x)
    (unheeded : Unheeded s edges input vars w asked w') :
    Departs s edges input vars w asked ((edges.find? Edge.isDefault).map Edge.target) w' := by
  rcases find?_default edges with
    ⟨found, none⟩ | ⟨before, e, after, found, order, earlier, isDefault⟩
  · rw [found]
    exact .nowhere unmet unheeded none
  · rw [found]
    exact .byDefault unmet unheeded order earlier isDefault

theorem Departs.journal {input : Option String} {target : Option String}
    (h : Departs s edges input vars w asked target w') :
    w'.journal = w.journal ++ asked.map fun text => .asked text none := by
  have quiet : w.journal = w.journal ++ ([] : List String).map fun text => .asked text none := by
    rw [List.map_nil, List.append_nil]
  have unheeded {asked : List String} {w' : World σ}
      (h : Unheeded s edges input vars w asked w') :
      w'.journal = w.journal ++ asked.map fun text => .asked text none := by
    cases h with
    | silent silent => exact quiet
    | declined said spoken declined => exact declined.journal
  cases h with
  | byEquation order earlier meets => exact quiet
  | byPrompt unmet said spoken order earlier conditions yes =>
    rw [List.map_append, ← List.append_assoc, ← earlier.journal]
    rfl
  | byDefault unmet h order earlier isDefault => exact unheeded h
  | nowhere unmet h none => exact unheeded h

end Choice

open Choice

theorem choose_departs (s : Services σ) (n : Node) (input : Option String) (vars : Variables)
    (w : World σ) :
    ∃ asked, Departs s n.edgesInOrder input vars w asked (choose s n input vars w).1
      (choose s n input vars w).2 := by
  unfold choose
  dsimp only
  cases found : n.edgesInOrder.find? (holds vars) with
  | some e =>
    obtain ⟨held, before, after, order, earlier⟩ := List.find?_eq_some_iff_append.mp found
    refine ⟨[], .byEquation order (fun x hx meets => ?_) ((holds_iff vars e).mp held)⟩
    have unmet := earlier x hx
    rw [(holds_iff vars x).mpr meets] at unmet
    cases unmet
  | none =>
    have unmet : ∀ x ∈ n.edgesInOrder, ¬ Meets vars x := fun x hx meets =>
      List.find?_eq_none.mp found x hx ((holds_iff vars x).mpr meets)
    dsimp only
    cases heard : Text.spoken? input with
    | none =>
      have silent : ∀ text, input = some text → Text.isBlankText text = true := by
        simpa [Text.spoken?, Option.filter_eq_none_iff] using heard
      exact ⟨[], (Unheeded.silent silent).departs unmet⟩
    | some text =>
      obtain ⟨said, spoken⟩ := Option.filter_eq_some_iff.mp heard
      simp only [Bool.not_eq_true'] at spoken
      dsimp only
      rcases judged_spec s vars text n.edgesInOrder w with
        ⟨asked, declined, none⟩ | ⟨before, e, after, asked, w', order, declined, conditions, yes, h⟩
      · rw [none, Option.none_or]
        exact ⟨asked, (Unheeded.declined said spoken declined).departs unmet⟩
      · rw [h]
        exact ⟨_, .byPrompt unmet said spoken order declined conditions yes⟩

/-- A node is left by the first of its edges whose equations hold, else by the first that the
generator affirms, else by the first default one; it is asked about the edges in order, and not
after the first yes. The warnings of a document name the equations that cannot be read, and the
equations of an edge with such a one never hold. -/
theorem leaves_by_first (s : Services σ) (n : Node) (input : Option String) (vars : Variables)
    (w : World σ) :
    (∃ edges asked, n.Ranks edges ∧
      Departs s edges input vars w asked (choose s n input vars w).1 (choose s n input vars w).2 ∧
      (choose s n input vars w).2.journal =
        w.journal ++ asked.map fun text => .asked text none) ∧
    (∀ (d : Document) (node edge message : String),
      .unreadableEquation node edge message ∈ d.warnings ↔
        ∃ m ∈ d.nodes, ∃ e ∈ m.edges, m.id = node ∧ e.id = edge ∧ e.Unreadable message) ∧
    ∀ e ∈ n.edges, ∀ message, e.Unreadable message → ¬ Meets vars e := by
  obtain ⟨asked, departs⟩ := choose_departs s n input vars w
  exact ⟨⟨n.edgesInOrder, asked, n.edgesInOrder_ranks, departs, departs.journal⟩,
    Document.mem_warnings, fun e _ message unreadable => not_meets_of_unreadable unreadable vars⟩

def booking : Node where
  id := "booking"
  name := ""
  description := none
  edges :=
    [⟨"", "lobby", [], true, 3⟩, ⟨"", "dinner", [⟨.byPrompt, "Wants dinner.", none⟩], false, 2⟩,
      ⟨"", "lunch", [⟨.byPrompt, "Wants lunch.", none⟩], false, 1⟩,
      ⟨"", "void", [⟨.byEquation, "((", none⟩], false, 0⟩]
  model := none
  temperature := none
  kind := .split

def promptly : Services (List (Except String String)) where
  generate _ _ replies := (replies.headD (.error "down"), replies.tail)
  functions := []
  transcriber := none
  observers := []

def evening : World (List (Except String String)) := ⟨[.error "down", .ok " Yes."], []⟩

theorem booking_leaves :
    (∃ edges asked, booking.Ranks edges ∧ asked.length = 2 ∧
      Departs promptly edges (some "Dinner.") .empty evening asked (some "dinner")
        (choose promptly booking (some "Dinner.") .empty evening).2) ∧
    ∃ e ∈ booking.edges, (∃ message, e.Unreadable message) ∧ ¬ Meets .empty e := by
  obtain ⟨⟨edges, asked, ranks, departs, journal⟩, -, never⟩ :=
    leaves_by_first promptly booking (some "Dinner.") .empty evening
  have order : booking.edgesInOrder = booking.edges.reverse := by
    simp [Node.edgesInOrder, booking, List.mergeSort, List.MergeSort.Internal.splitInTwo]
  have target : (choose promptly booking (some "Dinner.") .empty evening).1 = some "dinner" := by
    rw [choose, order]
    decide +kernel
  have length : (choose promptly booking (some "Dinner.") .empty evening).2.journal.length = 2 := by
    rw [choose, order]
    decide +kernel
  obtain ⟨fault, read⟩ : ∃ fault, Condition.ofText "((" = .error fault := by
    have refused : (Condition.ofText "((").isOk = false := by decide +kernel
    cases read : Condition.ofText "((" with
    | error fault => exact ⟨fault, rfl⟩
    | ok condition =>
      rw [read] at refused
      cases refused
  have last : booking.edges[3] ∈ booking.edges := List.getElem_mem _
  have unreadable : booking.edges[3].Unreadable fault.message :=
    ⟨"((", by decide, fault, read, rfl⟩
  rw [journal, evening, List.nil_append, List.length_map] at length
  exact ⟨⟨edges, asked, ranks, length, target ▸ departs⟩, _, last, ⟨_, unreadable⟩,
    never _ last _ unreadable⟩

end Dialogue
