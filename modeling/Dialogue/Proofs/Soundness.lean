import Dialogue.Flow.Document
/-! In a flow, the start, the targets of all edges and the fallback are nodes. -/
namespace Dialogue.Flow

theorem node?_isSome (f : Flow) (id : String) : (f.node? id).isSome ↔ id ∈ f.document.ids := by
  simp [node?, nodes, Document.ids, List.find?_isSome]

theorem id_of_node? {f : Flow} {id : String} {n : Node} (h : f.node? id = some n) : n.id = id := by
  simpa using List.find?_some h

theorem mem_of_node? {f : Flow} {id : String} {n : Node} (h : f.node? id = some n) :
    n ∈ f.nodes := List.mem_of_find?_eq_some h

theorem problems_nil (f : Flow) :
    f.document.startProblems = [] ∧ f.document.edgeProblems = [] ∧
      f.document.fallbackProblems = [] := by
  have h := f.sound
  simp only [Document.problems, List.append_eq_nil_iff] at h
  exact ⟨h.1.1.2, h.1.2, h.2⟩

theorem start_isSome (f : Flow) : (f.node? f.start).isSome := by
  have h := f.problems_nil.1
  unfold Document.startProblems at h
  rw [node?_isSome]
  split at h
  · simp at h
  · split at h
    · assumption
    · simp at h

theorem target_isSome (f : Flow) {n : Node} {e : Edge} (hn : n ∈ f.nodes) (he : e ∈ n.edges) :
    (f.node? e.target).isSome := by
  have h := f.problems_nil.2.1
  simp only [Document.edgeProblems, List.flatMap_eq_nil_iff, List.map_eq_nil_iff,
    List.filter_eq_nil_iff] at h
  rw [node?_isSome]
  simpa using h n hn e he

theorem fallback_isSome (f : Flow) {id : String} (h : f.settings.fallback = some id) :
    (f.node? id).isSome := by
  have hp := f.problems_nil.2.2
  simp only [Document.fallbackProblems] at hp
  rw [settings] at h
  rw [h] at hp
  rw [node?_isSome]
  dsimp only at hp
  split at hp
  · assumption
  · simp at hp

end Dialogue.Flow
