import Dialogue.Flow.Graph
import Dialogue.Flow.Schema
import Dialogue.Proofs.Soundness
/-!
Validation. A violation has its place in the document. Main statement: the problems of a document
are its violations in the order of their places, each once; a document without any becomes a flow
whose graph has kept all of it.
-/
namespace Dialogue.Flow

/-- Where a document can be wrong: at the id of a node, at its start, at an edge of a node, at its
fallback. -/
inductive Site where
  | node (i : Nat)
  | start
  | edge (i j : Nat)
  | fallback

def Site.place : Site → List Nat
  | node i => [0, i]
  | start => [1]
  | edge i j => [2, i, j]
  | fallback => [3]

namespace Document

def Lacks (d : Document) (id : String) : Prop := ∀ n ∈ d.nodes, n.id ≠ id

inductive Violates (d : Document) : Site → Problem → Prop where
  | repeated {i j : Nat} {n m : Node} (here : d.nodes[i]? = some n) (there : d.nodes[j]? = some m)
      (before : j < i) (same : m.id = n.id) : Violates d (.node i) (.duplicateNode n.id)
  | noStart (empty : d.start = "") : Violates d .start .missingStart
  | start (given : d.start ≠ "") (lacks : d.Lacks d.start) :
    Violates d .start (.unknownStart d.start)
  | edge {i j : Nat} {n : Node} {e : Edge} (here : d.nodes[i]? = some n)
      (leaving : n.edges[j]? = some e) (lacks : d.Lacks e.target) :
    Violates d (.edge i j) (.danglingEdge n.id e.id e.target)
  | fallback {id : String} (given : d.settings.fallback = some id) (lacks : d.Lacks id) :
    Violates d .fallback (.unknownFallback id)

def repeats (d : Document) : List (Site × Problem) :=
  d.nodes.zipIdx.filterMap fun n =>
    if n.1.id ∈ d.ids.take n.2 then some (.node n.2, .duplicateNode n.1.id) else none

def strayEdges (d : Document) : List (Site × Problem) :=
  d.nodes.zipIdx.flatMap fun n => n.1.edges.zipIdx.filterMap fun e =>
    if e.1.target ∉ d.ids then some (.edge n.2 e.2, .danglingEdge n.1.id e.1.id e.1.target)
    else none

def report (d : Document) : List (Site × Problem) :=
  d.repeats ++ d.startProblems.map (.start, ·) ++ d.strayEdges ++
    d.fallbackProblems.map (.fallback, ·)

variable (d : Document)

theorem lacks_iff (id : String) : d.Lacks id ↔ id ∉ d.ids := by
  simp [Lacks, ids]

/-- An id has come up before exactly if it is among those in front. -/
theorem repeated_eq (seen front rest : List String) (same : ∀ id, id ∈ seen ↔ id ∈ front) :
    repeated seen rest = (rest.zipIdx front.length).filterMap fun id =>
      if id.1 ∈ (front ++ rest).take id.2 then some id.1 else none := by
  induction rest generalizing seen front with
  | nil => rfl
  | cons id rest ih =>
    have hsame : ∀ other, other ∈ id :: seen ↔ other ∈ front ++ [id] := by
      intro other
      simp [same other, or_comm]
    have hrest := ih (id :: seen) (front ++ [id]) hsame
    rw [List.length_append, List.append_assoc] at hrest
    have hfront : (front ++ id :: rest).take front.length = front := List.take_left' rfl
    rw [repeated, hrest, List.zipIdx_cons, List.filterMap_cons, hfront]
    by_cases h : id ∈ seen
    · simp [h, (same id).mp h]
    · simp [h, mt (same id).mpr h]

theorem repeats_problems :
    d.repeats.map Prod.snd = (repeated [] d.ids).map .duplicateNode := by
  rw [repeated_eq [] [] d.ids (fun _ => Iff.rfl), repeats, ids, List.zipIdx_map,
    List.filterMap_map, List.map_filterMap, List.map_filterMap]
  congr 1
  funext n
  by_cases h : n.1.id ∈ (d.nodes.map Node.id).take n.2 <;> simp [h]

theorem strayEdges_problems : d.strayEdges.map Prod.snd = d.edgeProblems := by
  have hnode (n : Node) (i : Nat) :
      (n.edges.zipIdx.filterMap fun e =>
        if e.1.target ∉ d.ids then
          some (Site.edge i e.2, Problem.danglingEdge n.id e.1.id e.1.target)
        else none).map Prod.snd =
      (n.edges.filter fun e => e.target ∉ d.ids).map fun e =>
        Problem.danglingEdge n.id e.id e.target := by
    rw [List.map_filterMap, ← List.filterMap_eq_map, List.filterMap_filter]
    conv => rhs; rw [← List.zipIdx_map_fst 0 n.edges, List.filterMap_map]
    congr 1
    funext e
    by_cases h : e.1.target ∈ d.ids <;> simp [h]
  rw [strayEdges, List.map_flatMap, edgeProblems]
  conv => rhs; rw [← List.zipIdx_map_fst 0 d.nodes, List.flatMap_map]
  congr 1
  funext n
  exact hnode n.1 n.2

theorem report_problems : d.report.map Prod.snd = d.problems := by
  simp only [report, problems, List.map_append, List.map_map, repeats_problems,
    strayEdges_problems]
  simp [Function.comp_def]

theorem mem_take_ids (i : Nat) (id : String) :
    id ∈ d.ids.take i ↔ ∃ j m, j < i ∧ d.nodes[j]? = some m ∧ m.id = id := by
  rw [List.mem_iff_getElem?]
  simp only [List.getElem?_take, ids, List.getElem?_map]
  constructor
  · intro given
    obtain ⟨j, h⟩ := given
    by_cases hj : j < i
    · rw [if_pos hj, Option.map_eq_some_iff] at h
      obtain ⟨m, hm, same⟩ := h
      exact ⟨j, m, hj, hm, same⟩
    · rw [if_neg hj] at h
      cases h
  · intro given
    obtain ⟨j, m, hj, hm, same⟩ := given
    exact ⟨j, by rw [if_pos hj, hm, Option.map_some, same]⟩

theorem mem_repeats (s : Site) (p : Problem) :
    (s, p) ∈ d.repeats ↔ ∃ i, s = .node i ∧ d.Violates s p := by
  simp only [repeats, List.mem_filterMap, List.mem_zipIdx_iff_getElem?, Prod.exists]
  constructor
  · intro given
    obtain ⟨n, i, here, h⟩ := given
    by_cases again : n.id ∈ d.ids.take i
    · rw [if_pos again] at h
      cases h
      obtain ⟨j, m, before, there, same⟩ := (d.mem_take_ids i n.id).mp again
      exact ⟨i, rfl, .repeated here there before same⟩
    · rw [if_neg again] at h
      cases h
  · intro given
    obtain ⟨i, hs, h⟩ := given
    subst hs
    cases h with
    | @repeated _ j n m here there before same =>
      have again := (d.mem_take_ids i n.id).mpr ⟨j, m, before, there, same⟩
      exact ⟨n, i, here, if_pos again⟩

theorem mem_strayEdges (s : Site) (p : Problem) :
    (s, p) ∈ d.strayEdges ↔ ∃ i j, s = .edge i j ∧ d.Violates s p := by
  simp only [strayEdges, List.mem_flatMap, List.mem_filterMap, List.mem_zipIdx_iff_getElem?,
    Prod.exists]
  constructor
  · intro given
    obtain ⟨n, i, here, e, j, leaving, h⟩ := given
    by_cases known : e.target ∈ d.ids
    · rw [if_neg (not_not_intro known)] at h
      cases h
    · rw [if_pos known] at h
      cases h
      exact ⟨i, j, rfl, .edge here leaving ((d.lacks_iff e.target).mpr known)⟩
  · intro given
    obtain ⟨i, j, hs, h⟩ := given
    subst hs
    cases h with
    | @edge _ _ n e here leaving lacks =>
      exact ⟨n, i, here, e, j, leaving, if_pos ((d.lacks_iff e.target).mp lacks)⟩

theorem mem_startProblems (p : Problem) : p ∈ d.startProblems ↔ d.Violates .start p := by
  rw [startProblems]
  by_cases empty : d.start = ""
  · rw [if_pos empty, List.mem_singleton]
    constructor
    · intro hp
      exact hp ▸ .noStart empty
    · intro h
      cases h with
      | noStart => rfl
      | start given => exact absurd empty given
  · rw [if_neg empty]
    by_cases known : d.start ∈ d.ids
    · rw [if_pos known]
      constructor
      · intro h
        cases h
      · intro h
        cases h with
        | noStart => contradiction
        | start _ lacks => exact absurd known ((d.lacks_iff d.start).mp lacks)
    · rw [if_neg known, List.mem_singleton]
      constructor
      · intro hp
        exact hp ▸ .start empty ((d.lacks_iff d.start).mpr known)
      · intro h
        cases h with
        | noStart => contradiction
        | start => rfl

theorem mem_fallbackProblems (p : Problem) :
    p ∈ d.fallbackProblems ↔ d.Violates .fallback p := by
  rw [fallbackProblems]
  cases given : d.settings.fallback with
  | none =>
    constructor
    · intro h
      cases h
    · intro h
      cases h with
      | fallback h => rw [given] at h; cases h
  | some id =>
    dsimp only
    by_cases known : id ∈ d.ids
    · rw [if_pos known]
      constructor
      · intro h
        cases h
      · intro h
        cases h with
        | fallback h lacks =>
          rw [given] at h
          cases h
          exact absurd known ((d.lacks_iff id).mp lacks)
    · rw [if_neg known, List.mem_singleton]
      constructor
      · intro hp
        exact hp ▸ .fallback given ((d.lacks_iff id).mpr known)
      · intro h
        cases h with
        | fallback h =>
          rw [given] at h
          cases h
          rfl

/-- Every violation is reported, and nothing else is. -/
theorem mem_report (s : Site) (p : Problem) : (s, p) ∈ d.report ↔ d.Violates s p := by
  have hat (site : Site) (ps : List Problem) :
      (s, p) ∈ ps.map (site, ·) ↔ s = site ∧ p ∈ ps := by
    rw [List.mem_map]
    constructor
    · intro given
      obtain ⟨q, hq, h⟩ := given
      cases h
      exact ⟨rfl, hq⟩
    · intro given
      obtain ⟨hs, hp⟩ := given
      exact ⟨p, hp, by rw [hs]⟩
  simp only [report, List.mem_append, mem_repeats, mem_strayEdges, hat, mem_startProblems,
    mem_fallbackProblems]
  constructor
  · intro h
    obtain ((⟨_, _, h⟩ | ⟨hs, h⟩) | ⟨_, _, _, h⟩) | ⟨hs, h⟩ := h
    · exact h
    · exact hs ▸ h
    · exact h
    · exact hs ▸ h
  · intro h
    cases s with
    | node i => exact .inl (.inl (.inl ⟨i, rfl, h⟩))
    | start => exact .inl (.inl (.inr ⟨rfl, h⟩))
    | edge i j => exact .inl (.inr ⟨i, j, rfl, h⟩)
    | fallback => exact .inr ⟨rfl, h⟩

section
variable {α : Type}

/-- The positions in a list go up. -/
theorem zipIdx_ordered (xs : List α) : xs.zipIdx.Pairwise fun x y => x.2 < y.2 := by
  have h : (xs.zipIdx.map Prod.snd).Pairwise (· < ·) := by
    rw [List.zipIdx_map_snd]
    exact List.pairwise_lt_range'
  exact List.pairwise_map.mp h

end

theorem repeats_ordered : d.repeats.Pairwise fun a b => a.1.place < b.1.place := by
  rw [repeats, List.pairwise_filterMap]
  refine (zipIdx_ordered d.nodes).imp ?_
  intro n m before a ha b hb
  by_cases hn : n.1.id ∈ d.ids.take n.2
  · by_cases hm : m.1.id ∈ d.ids.take m.2
    · rw [if_pos hn] at ha
      rw [if_pos hm] at hb
      cases ha
      cases hb
      exact .cons (.rel before)
    · rw [if_neg hm] at hb
      cases hb
  · rw [if_neg hn] at ha
    cases ha

theorem strayEdges_ordered : d.strayEdges.Pairwise fun a b => a.1.place < b.1.place := by
  have hsome {n : Node × Nat} {e : Edge × Nat} {a : Site × Problem}
      (h : (if e.1.target ∉ d.ids then
        some (Site.edge n.2 e.2, Problem.danglingEdge n.1.id e.1.id e.1.target) else none) = some a) :
      a.1 = .edge n.2 e.2 := by
    by_cases known : e.1.target ∈ d.ids
    · rw [if_neg (not_not_intro known)] at h
      cases h
    · rw [if_pos known] at h
      cases h
      rfl
  rw [strayEdges, List.pairwise_flatMap]
  refine ⟨?_, (zipIdx_ordered d.nodes).imp ?_⟩
  · intro n _
    rw [List.pairwise_filterMap]
    refine (zipIdx_ordered n.1.edges).imp ?_
    intro e e' before a ha b hb
    rw [hsome ha, hsome hb]
    exact .cons (.cons (.rel before))
  · intro n m before a ha b hb
    obtain ⟨e, -, ha⟩ := List.mem_filterMap.mp ha
    obtain ⟨e', -, hb⟩ := List.mem_filterMap.mp hb
    rw [hsome ha, hsome hb]
    exact .cons (.rel before)

/-- At one place there is one problem at the most. -/
theorem alone_ordered (site : Site) {ps : List Problem} (alone : ps.length ≤ 1) :
    (ps.map (site, ·)).Pairwise fun a b => a.1.place < b.1.place := by
  match ps, alone with
  | [], _ => exact .nil
  | [_], _ => exact List.pairwise_singleton _ _

theorem report_ordered : d.report.Pairwise fun a b => a.1.place < b.1.place := by
  have hnode : ∀ a ∈ d.repeats, ∃ i, a.1 = .node i := fun a ha =>
    ((d.mem_repeats a.1 a.2).mp ha).imp fun _ h => h.1
  have hedge : ∀ a ∈ d.strayEdges, ∃ i j, a.1 = .edge i j := fun a ha =>
    ((d.mem_strayEdges a.1 a.2).mp ha).imp fun _ h => h.imp fun _ h => h.1
  have hat (site : Site) (ps : List Problem) : ∀ a ∈ ps.map (site, ·), a.1 = site := by
    intro a ha
    obtain ⟨p, -, rfl⟩ := List.mem_map.mp ha
    rfl
  have hstart : d.startProblems.length ≤ 1 := by
    rw [startProblems]
    by_cases empty : d.start = ""
    · simp [empty]
    · by_cases known : d.start ∈ d.ids <;> simp [empty, known]
  have hfallback : d.fallbackProblems.length ≤ 1 := by
    rw [fallbackProblems]
    cases d.settings.fallback with
    | none => simp
    | some id => by_cases known : id ∈ d.ids <;> simp [known]
  -- The four parts are ordered each, and the first number of a place tells the part.
  rw [report, List.pairwise_append, List.pairwise_append, List.pairwise_append]
  refine ⟨⟨⟨d.repeats_ordered, alone_ordered .start hstart, ?_⟩, d.strayEdges_ordered, ?_⟩,
    alone_ordered .fallback hfallback, ?_⟩
  · intro a ha b hb
    obtain ⟨i, hi⟩ := hnode a ha
    rw [hi, hat _ _ b hb]
    exact .rel (by decide)
  · intro a ha b hb
    obtain ⟨j, k, hj⟩ := hedge b hb
    rw [hj]
    cases List.mem_append.mp ha with
    | inl ha =>
      obtain ⟨i, hi⟩ := hnode a ha
      rw [hi]
      exact .rel (by decide)
    | inr ha =>
      rw [hat _ _ a ha]
      exact .rel (by decide)
  · intro a ha b hb
    rw [hat _ _ b hb]
    have hplace : ∃ k rest, a.1.place = k :: rest ∧ k < 3 := by
      cases List.mem_append.mp ha with
      | inl ha =>
        cases List.mem_append.mp ha with
        | inl ha =>
          obtain ⟨i, hi⟩ := hnode a ha
          exact ⟨0, [i], by rw [hi]; rfl, by decide⟩
        | inr ha => exact ⟨1, [], by rw [hat _ _ a ha]; rfl, by decide⟩
      | inr ha =>
        obtain ⟨i, j, hi⟩ := hedge a ha
        exact ⟨2, [i, j], by rw [hi]; rfl, by decide⟩
    obtain ⟨k, rest, hk, lt⟩ := hplace
    rw [hk]
    exact .rel lt

theorem repeated_nil (seen rest : List String) :
    repeated seen rest = [] ↔ rest.Nodup ∧ ∀ id ∈ rest, id ∉ seen := by
  induction rest generalizing seen with
  | nil => simp [repeated]
  | cons id rest ih =>
    rw [repeated, List.append_eq_nil_iff, ih, List.nodup_cons, List.forall_mem_cons]
    simp only [List.mem_cons, not_or]
    constructor
    · intro given
      obtain ⟨hid, nodup, hrest⟩ := given
      have hseen : id ∉ seen := by
        intro h
        rw [if_pos h] at hid
        cases hid
      exact ⟨⟨fun h => (hrest id h).1 rfl, nodup⟩, hseen, fun other h => (hrest other h).2⟩
    · intro given
      obtain ⟨⟨hid, nodup⟩, hseen, hrest⟩ := given
      exact ⟨if_neg hseen, nodup, fun other h => ⟨fun same => hid (same ▸ h), hrest other h⟩⟩

/-- What is wrong beside repeated ids is wrong with the references. -/
theorem problems_eq : d.problems = (repeated [] d.ids).map .duplicateNode ++ d.strays d.ids := by
  have hfallback : d.fallbackProblems =
      (d.settings.fallback.toList.filter fun id => id ∉ d.ids).map .unknownFallback := by
    rw [fallbackProblems]
    cases d.settings.fallback with
    | none => rfl
    | some id => by_cases known : id ∈ d.ids <;> simp [known]
  rw [problems, hfallback, strays, startProblems, edgeProblems]
  simp only [List.append_assoc]

/-- Only which ids there are matters, not their order or number. -/
theorem strays_congr {known known' : List String} (same : ∀ id, id ∈ known ↔ id ∈ known') :
    d.strays known = d.strays known' := by
  simp only [strays, same]

end Document

namespace Graph
variable (d : Document)

theorem mem_index (id : String) :
    id ∈ (ofDocument d).index.map Prod.fst ↔ id ∈ d.ids := by
  rw [← Table.contains_iff, ofDocument, Table.contains, Table.get?_ofPairs]
  have hreverse := Table.contains_iff (d.nodes.map fun n => (n.id, n)).reverse id
  rw [Table.contains] at hreverse
  rw [hreverse]
  simp [Document.ids]

variable {d}

theorem node?_of_mem (once : d.ids.Nodup) {n : Node} (listed : n ∈ d.nodes) :
    (ofDocument d).node? n.id = some n := by
  rw [node?, ofDocument, Table.get?_ofPairs]
  apply Table.get?_of_mem
  · rw [List.map_reverse, List.map_map, (List.reverse_perm _).nodup_iff]
    exact once
  · rw [List.mem_reverse]
    exact List.mem_map_of_mem listed

theorem nodes_ofDocument (once : d.ids.Nodup) : (ofDocument d).nodes = d.nodes := by
  have hfound : ∀ n ∈ d.nodes, (ofDocument d).node? n.id = some n := fun n h =>
    node?_of_mem once h
  have horder : (ofDocument d).order = d.nodes.map Node.id := rfl
  rw [nodes, horder, List.filterMap_map]
  generalize d.nodes = ns at hfound
  induction ns with
  | nil => rfl
  | cons n rest ih =>
    have hn : ((ofDocument d).node? ∘ Node.id) n = some n := hfound n List.mem_cons_self
    rw [List.filterMap_cons_some hn, ih fun m h => hfound m (List.mem_cons_of_mem n h)]

theorem toDocument_ofDocument (once : d.ids.Nodup) : (ofDocument d).toDocument = d := by
  rw [toDocument, nodes_ofDocument once]
  rfl

structure Holds (g : Graph) (d : Document) : Prop where
  document : g.toDocument = d
  nodes : g.nodes = d.nodes
  found : ∀ n ∈ d.nodes, g.node? n.id = some n
  start : (g.node? d.start).isSome
  targets : ∀ n ∈ d.nodes, ∀ e ∈ n.edges, (g.node? e.target).isSome
  fallback : ∀ id, d.settings.fallback = some id → (g.node? id).isSome
  problems : g.problems = []
  warnings : g.warnings = d.warnings

end Graph

theorem ids_nodup (f : Flow) : f.document.ids.Nodup := by
  have h := f.sound
  rw [Document.problems_eq, List.append_eq_nil_iff, List.map_eq_nil_iff] at h
  exact ((Document.repeated_nil [] f.document.ids).mp h.1).1

/-- The table of the graph finds what a search through the nodes finds. -/
theorem graph_node? (f : Flow) (id : String) : f.graph.node? id = f.node? id := by
  cases h : f.node? id with
  | some n =>
    rw [← id_of_node? h]
    exact Graph.node?_of_mem f.ids_nodup (mem_of_node? h)
  | none =>
    have hid : id ∉ f.document.ids := by
      rw [← f.node?_isSome, h]
      nofun
    rw [← Graph.mem_index, ← Table.contains_iff, Table.contains] at hid
    exact Option.not_isSome_iff_eq_none.mp hid

theorem graph_holds (f : Flow) : f.graph.Holds f.document := by
  have once := f.ids_nodup
  have hdocument : f.graph.toDocument = f.document := Graph.toDocument_ofDocument once
  refine ⟨hdocument, Graph.nodes_ofDocument once, fun n h => Graph.node?_of_mem once h, ?_, ?_, ?_,
    ?_, ?_⟩
  · rw [graph_node?]
    exact f.start_isSome
  · intro n hn e he
    rw [graph_node?]
    exact f.target_isSome hn he
  · intro id h
    rw [graph_node?]
    exact f.fallback_isSome h
  · have h := f.sound
    rw [Document.problems_eq, List.append_eq_nil_iff] at h
    have hknown := f.document.strays_congr (Graph.mem_index f.document)
    rw [Graph.problems, hdocument, graph, hknown]
    exact h.2
  · rw [Graph.warnings, hdocument]

/-- The problems of a document are its violations, in the order of their places and each once. A
document with any is refused with just these; any other is loaded, and the graph of the flow keeps
all of it. -/
theorem loads_or_reports (d : Document) :
    (∃ report : List (Site × Problem), report.map Prod.snd = d.problems ∧
      (report.Pairwise fun a b => a.1.place < b.1.place) ∧
      ∀ s p, (s, p) ∈ report ↔ d.Violates s p) ∧
    ((d.problems ≠ [] ∧ load (some d) = .error (.invalid d.problems)) ∨
      (d.problems = [] ∧ ∃ f, load (some d) = .ok f ∧ f.graph.Holds d)) := by
  refine ⟨⟨d.report, d.report_problems, d.report_ordered, d.mem_report⟩, ?_⟩
  by_cases h : d.problems = []
  · refine .inr ⟨h, ⟨d, h⟩, ?_, graph_holds ⟨d, h⟩⟩
    rw [load, ofDocument, dif_pos h]
    rfl
  · refine .inl ⟨h, ?_⟩
    rw [load, ofDocument, dif_neg h]
    rfl

end Dialogue.Flow
