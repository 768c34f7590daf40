import Dialogue.Execution.Run
/-!
Variables that are written at one go. A conversation reads them off the words into a hash map, and
the order in which they are written is up to the map. Main statement: it makes no difference to the
values, and none to the log but within the batch.
-/
namespace Dialogue

open Json (Value)
open Dialogue.Flow (Node Conversation)

variable {σ : Type}

namespace Table
variable {α : Type}

theorem mem_insert {table : Table α} {name : String} {value : α} {entry : String × α}
    (listed : entry ∈ table.insert name value) : entry = (name, value) ∨ entry ∈ table := by
  induction table with
  | nil => exact .inl (List.mem_singleton.mp listed)
  | cons first rest ih =>
    obtain ⟨key, old⟩ := first
    rw [insert] at listed
    split at listed
    · exact (List.mem_cons.mp listed).imp_right (List.mem_cons_of_mem _)
    · split at listed
      · exact List.mem_cons.mp listed
      · cases List.mem_cons.mp listed with
        | inl same => exact .inr (same ▸ List.mem_cons_self)
        | inr later => exact (ih later).imp_right (List.mem_cons_of_mem _)

theorem mem_ofPairs {pairs : List (String × α)} {entry : String × α}
    (listed : entry ∈ ofPairs pairs) : entry ∈ pairs := by
  suffices h : ∀ table : Table α,
      entry ∈ pairs.foldl (fun table pair => insert table pair.1 pair.2) table →
        entry ∈ table ∨ entry ∈ pairs from (h [] listed).resolve_left List.not_mem_nil
  clear listed
  induction pairs with
  | nil => exact fun table listed => .inl listed
  | cons pair rest ih =>
    intro table listed
    rcases ih _ listed with listed | listed
    · rcases mem_insert listed with rfl | listed
      · exact .inr List.mem_cons_self
      · exact .inl listed
    · exact .inr (List.mem_cons_of_mem pair listed)

def Ordered (table : Table α) : Prop :=
  table.Pairwise fun a b => a.1 < b.1

theorem Ordered.insert {table : Table α} (h : table.Ordered) (name : String) (value : α) :
    (table.insert name value).Ordered := by
  induction table with
  | nil => exact List.pairwise_singleton _ _
  | cons first rest ih =>
    obtain ⟨key, old⟩ := first
    obtain ⟨least, rest_ordered⟩ := List.pairwise_cons.mp h
    rw [Table.insert]
    split
    · next same => exact List.pairwise_cons.mpr ⟨same ▸ least, rest_ordered⟩
    · next other =>
      split
      · next before =>
        refine List.pairwise_cons.mpr ⟨List.forall_mem_cons.mpr ⟨before, fun entry he => ?_⟩, h⟩
        exact String.lt_trans before (least entry he)
      · next notBefore =>
        have after : key < name :=
          String.not_le.mp fun le => other (String.le_antisymm (String.not_lt.mp notBefore) le)
        refine List.pairwise_cons.mpr ⟨fun entry he => ?_, ih rest_ordered⟩
        rcases mem_insert he with rfl | he
        · exact after
        · exact least entry he

theorem ordered_ofPairs (pairs : List (String × α)) : (ofPairs pairs).Ordered := by
  suffices h : ∀ table : Table α, table.Ordered →
      (pairs.foldl (fun table pair => insert table pair.1 pair.2) table).Ordered from
    h [] List.Pairwise.nil
  induction pairs with
  | nil => exact fun table h => h
  | cons pair rest ih => exact fun table h => ih _ (h.insert pair.1 pair.2)

theorem Ordered.nodup {table : Table α} (h : table.Ordered) : (table.map Prod.fst).Nodup := by
  refine List.pairwise_map.mpr (h.imp fun {a b} before same => ?_)
  rw [same] at before
  exact String.lt_irrefl _ before

theorem Ordered.nodup_listing {map : Table Value} (h : map.Ordered) (listing : Listing map) :
    (listing.entries.map Prod.fst).Nodup :=
  (listing.perm.map Prod.fst).nodup_iff.mpr h.nodup

/-- Where no name is listed twice, it makes no difference from which end a table is searched. -/
theorem get?_reverse {table : Table α} (once : (table.map Prod.fst).Nodup) (name : String) :
    get? table.reverse name = get? table name := by
  induction table with
  | nil => rfl
  | cons entry rest ih =>
    obtain ⟨key, value⟩ := entry
    obtain ⟨fresh, once⟩ := List.nodup_cons.mp once
    rw [List.reverse_cons, get?_concat, ih once, get?_cons]
    by_cases same : name = key
    · have absent : get? rest name = none := by
        rw [same, ← Option.not_isSome_iff_eq_none]
        exact fun found => fresh ((contains_iff rest key).mp found)
      rw [absent, if_pos same]
      rfl
    · rw [if_neg same, if_neg same, Option.or_none]

/-- What is put under two names may be put there in either order. -/
theorem insert_swap (table : Table α) {a b : String} (before : a < b) (u v : α) :
    (table.insert a u).insert b v = (table.insert b v).insert a u := by
  have later : ¬ b < a := fun h => String.lt_irrefl a (String.lt_trans before h)
  have differ : a ≠ b := fun same => String.lt_irrefl a (same ▸ before)
  induction table with
  | nil => simp [insert, before, later, differ, differ.symm]
  | cons first rest ih =>
    obtain ⟨key, old⟩ := first
    by_cases key_a : key = a
    · subst key_a
      simp [insert, later, differ]
    by_cases a_key : a < key
    · by_cases key_b : key = b
      · subst key_b
        simp [insert, before, key_a, later, differ]
      by_cases b_key : b < key
      · simp [insert, before, key_a, a_key, key_b, b_key, later, differ, differ.symm]
      · simp [insert, key_a, a_key, key_b, b_key, later, differ]
    · have key_b : key ≠ b := fun same => a_key (same ▸ before)
      have b_key : ¬ b < key := fun h => a_key (String.lt_trans before h)
      simp [insert, key_a, a_key, key_b, b_key, ih]

theorem overlay_perm {entries entries' : List (String × α)} (perm : entries.Perm entries')
    (once : (entries.map Prod.fst).Nodup) (below : Table α) :
    below.overlay entries = below.overlay entries' := by
  refine perm.foldl_eq' (fun a ha b hb table => ?_) below
  by_cases before : a.1 < b.1
  · exact table.insert_swap before a.2 b.2
  by_cases after : b.1 < a.1
  · exact (table.insert_swap after b.2 a.2).symm
  · have same : a.1 = b.1 :=
      String.le_antisymm (String.not_lt.mp after) (String.not_lt.mp before)
    have found := get?_of_mem once ha
    rw [same, get?_of_mem once hb, Option.some_inj] at found
    rw [same, found]

end Table

namespace Variables

theorem setAll_values (vars : Variables) (entries : Table Value) (source : String) :
    (vars.setAll entries source).values = vars.values.overlay entries := by
  induction entries generalizing vars with
  | nil => rfl
  | cons entry rest ih => exact ih (vars.set entry.1 entry.2 source)

/-- Where no name is written twice, each entry tells of the value before all of them. -/
theorem setAll_history (vars : Variables) {entries : List (String × Value)}
    (once : (entries.map Prod.fst).Nodup) (source : String) :
    (vars.setAll entries source).history = vars.history ++
      entries.map fun entry => ⟨entry.1, vars.get? entry.1, some entry.2, source⟩ := by
  induction entries generalizing vars with
  | nil => exact (List.append_nil _).symm
  | cons entry rest ih =>
    obtain ⟨fresh, once'⟩ := List.nodup_cons.mp once
    have others : ∀ e ∈ rest, (vars.set entry.1 entry.2 source).get? e.1 = vars.get? e.1 := by
      intro e he
      have differ : e.1 ≠ entry.1 := fun same => fresh (same ▸ List.mem_map_of_mem he)
      exact (Table.get?_insert _ _ _ _).trans (if_neg differ)
    have later : (vars.setAll (entry :: rest) source).history = _ :=
      ih (vars.set entry.1 entry.2 source) once'
    rw [later, List.map_congr_left fun e he => by rw [others e he]]
    simp [set]

end Variables

/-- Two logs of the same changes in the same order, but for those that a conversation writes at one
go: they may come in another order in each. -/
inductive Reordered (f : Flow) : List Change → List Change → Prop where
  | nil : Reordered f [] []
  | single {log log' : List Change} (change : Change) (before : Reordered f log log') :
    Reordered f (log ++ [change]) (log' ++ [change])
  | batch {log log' changes changes' : List Change} {n : Node} {c : Conversation}
    (before : Reordered f log log') (found : f.node? n.id = some n)
    (kind : n.kind = .conversation c) (perm : changes.Perm changes')
    (once : (changes.map Change.name).Nodup)
    (written : ∀ change ∈ changes, change.source = n.id ∧ change.name ∈ c.extracted) :
    Reordered f (log ++ changes) (log' ++ changes')

namespace Reordered
variable {f : Flow} {log log' : List Change}

theorem append (h : Reordered f log log') (more : List Change) :
    Reordered f (log ++ more) (log' ++ more) := by
  induction more generalizing log log' with
  | nil => rwa [List.append_nil, List.append_nil]
  | cons change rest ih =>
    have next := ih (.single change h)
    rwa [List.append_assoc, List.append_assoc] at next

theorem refl (f : Flow) (log : List Change) : Reordered f log log :=
  append .nil log

theorem perm (h : Reordered f log log') : log.Perm log' := by
  induction h with
  | nil => exact .nil
  | single change _ ih => exact ih.append_right [change]
  | batch _ _ _ perm _ _ ih => exact ih.append perm

/-- What the logs tell of one name is the same in the same order. -/
theorem filter_name (h : Reordered f log log') (name : String) :
    log.filter (fun change => change.name = name) =
      log'.filter fun change => change.name = name := by
  induction h with
  | nil => rfl
  | single change _ ih => rw [List.filter_append, List.filter_append, ih]
  | @batch log log' changes changes' _ _ _ _ _ perm once _ ih =>
    rw [List.filter_append, List.filter_append, ih]
    congr 1
    -- A batch has at most one change of a name.
    have few : (changes.filter fun change => change.name = name).length ≤ 1 := by
      have counted := List.nodup_iff_count.mp once name
      rwa [List.count_eq_countP, List.countP_map, List.countP_eq_length_filter] at counted
    have same := perm.filter fun change => decide (change.name = name)
    generalize changes.filter (fun change => change.name = name) = told at few same
    cases told with
    | nil => exact same.nil_eq
    | cons change rest =>
      have alone : rest = [] := List.length_eq_zero_iff.mp (by rw [List.length_cons] at few; omega)
      subst alone
      exact same.singleton_eq

end Reordered

structure Variables.Alike (f : Flow) (vars vars' : Variables) : Prop where
  values : vars.values = vars'.values
  history : Reordered f vars.history vars'.history

namespace Variables.Alike
variable {f : Flow} {vars vars' : Variables}

theorem refl (f : Flow) (vars : Variables) : vars.Alike f vars := ⟨rfl, .refl f _⟩

theorem changesOf (h : vars.Alike f vars') (name : String) :
    vars.changesOf name = vars'.changesOf name :=
  h.history.filter_name name

theorem set (h : vars.Alike f vars') (name : String) (value : Value) (source : String) :
    (vars.set name value source).Alike f (vars'.set name value source) where
  values := congrArg (Table.insert · name value) h.values
  history := by
    rw [Variables.set, Variables.set, get?, get?, h.values]
    exact .single _ h.history

/-- What a conversation reads off the words may be written in any order. -/
theorem batch (h : vars.Alike f vars') {n : Node} {c : Conversation}
    (found : f.node? n.id = some n) (kind : n.kind = .conversation c) {map : Table Value}
    (ordered : map.Ordered) (named : ∀ entry ∈ map, entry.1 ∈ c.extracted)
    (listing listing' : Listing map) :
    (vars.setAll listing.entries n.id).Alike f (vars'.setAll listing'.entries n.id) := by
  have once := ordered.nodup_listing listing
  have once' := ordered.nodup_listing listing'
  have perm := listing.perm.trans listing'.perm.symm
  constructor
  · rw [setAll_values, setAll_values, h.values, Table.overlay_perm perm once]
  · have old : vars'.get? = vars.get? := congrArg Table.get? h.values.symm
    rw [setAll_history vars once, setAll_history vars' once', old]
    refine .batch h.history found kind (perm.map _) ?_ fun change listed => ?_
    · rw [List.map_map]
      exact once
    · obtain ⟨entry, he, rfl⟩ := List.mem_map.mp listed
      exact ⟨rfl, named entry (listing.perm.mem_iff.mp he)⟩

end Variables.Alike

theorem Extraction.mem_ofReply {names : List String} {reply : String} {entry : String × Value}
    (listed : entry ∈ ofReply names reply) : entry.1 ∈ names ∧ entry.2 ≠ .null := by
  unfold ofReply at listed
  split at listed
  · next members _ =>
    obtain ⟨name, given, found⟩ := List.mem_filterMap.mp (Table.mem_ofPairs listed)
    split at found
    · cases found
    · cases found
    · next v filled _ =>
      cases found
      exact ⟨given, fun null => filled (null ▸ rfl)⟩
  · exact absurd listed List.not_mem_nil

namespace Run

theorem mem_extractAll {s : Services σ} {c : Conversation} {input : Option String} {w : World σ}
    {entry : String × Value} (listed : entry ∈ (extractAll s c input w).1) :
    input.isSome = true ∧ entry.1 ∈ c.extracted ∧ entry.2 ≠ .null := by
  unfold extractAll at listed
  split at listed
  · exact absurd listed List.not_mem_nil
  · next input =>
    split at listed
    · exact absurd listed List.not_mem_nil
    · dsimp only at listed
      split at listed
      · exact ⟨rfl, Extraction.mem_ofReply listed⟩
      · exact absurd listed List.not_mem_nil

theorem ordered_extractAll (s : Services σ) (c : Conversation) (input : Option String)
    (w : World σ) : (extractAll s c input w).1.Ordered := by
  unfold extractAll
  split
  · exact List.Pairwise.nil
  · split
    · exact List.Pairwise.nil
    · dsimp only
      split
      · unfold Extraction.ofReply
        split
        · exact Table.ordered_ofPairs _
        · exact List.Pairwise.nil
      · exact List.Pairwise.nil

end Run
end Dialogue
