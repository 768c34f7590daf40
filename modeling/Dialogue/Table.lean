/-! Tables from names to values, listed in ascending order of the names. -/
namespace Dialogue

/-- A table lists each of its names once, in ascending order of code points. -/
abbrev Table (α : Type) := List (String × α)

namespace Table
variable {α : Type}

def get? (table : Table α) (name : String) : Option α :=
  table.lookup name

def contains (table : Table α) (name : String) : Bool :=
  (get? table name).isSome

def insert (table : Table α) (name : String) (value : α) : Table α :=
  match table with
  | [] => [(name, value)]
  | (key, old) :: rest =>
    if key = name then (name, value) :: rest
    else if name < key then (name, value) :: (key, old) :: rest
    else (key, old) :: insert rest name value

def erase (table : Table α) (name : String) : Table α :=
  table.filter fun entry => entry.1 ≠ name

/-- The table of a list of pairs, in which a later pair replaces an earlier one of its name. -/
def ofPairs (pairs : List (String × α)) : Table α :=
  pairs.foldl (fun table pair => insert table pair.1 pair.2) []

def overlay (below above : Table α) : Table α :=
  above.foldl (fun table entry => insert table entry.1 entry.2) below

@[simp] theorem get?_nil (name : String) : get? ([] : Table α) name = none := rfl

theorem get?_cons (key name : String) (value : α) (rest : Table α) :
    get? ((key, value) :: rest) name = if name = key then some value else get? rest name := by
  by_cases h : name = key
  · simp [get?, h]
  · simp [get?, List.lookup_cons, h, beq_eq_false_iff_ne.mpr h]

/-- A name reads back what was put under it, and every other name what it had. -/
theorem get?_insert (table : Table α) (name other : String) (value : α) :
    get? (insert table name value) other =
      if other = name then some value else get? table other := by
  induction table with
  | nil => simp [insert, get?_cons]
  | cons entry rest ih =>
    obtain ⟨key, old⟩ := entry
    simp only [insert]
    split
    · next h => subst h; by_cases h : other = key <;> simp [get?_cons, h]
    · split
      · simp [get?_cons]
      · next h _ =>
        simp only [get?_cons, ih]
        by_cases hk : other = key <;> by_cases hn : other = name <;> simp_all

/-- A name taken out is no longer listed, and every other name keeps its value. -/
theorem get?_erase (table : Table α) (name other : String) :
    get? (erase table name) other = if other = name then none else get? table other := by
  induction table with
  | nil => simp [erase]
  | cons entry rest ih =>
    obtain ⟨key, old⟩ := entry
    simp only [erase, List.filter_cons] at ih ⊢
    by_cases hk : key = name
    · subst hk
      by_cases ho : other = key <;> simp_all [get?_cons]
    · by_cases ho : other = key <;> simp_all [get?_cons]

theorem get?_concat (table : Table α) (key name : String) (value : α) :
    get? (table ++ [(key, value)]) name =
      (get? table name).or (if name = key then some value else none) := by
  rw [get?, List.lookup_append]
  exact congrArg (Option.or _) (get?_cons key name value [])

/-- A name has the last value that is laid over it, else the one below. -/
theorem get?_overlay (below above : Table α) (name : String) :
    get? (overlay below above) name = (get? above.reverse name).or (get? below name) := by
  induction above generalizing below with
  | nil => rfl
  | cons entry rest ih =>
    obtain ⟨key, value⟩ := entry
    have first : overlay below ((key, value) :: rest) = overlay (below.insert key value) rest := rfl
    rw [first, ih, List.reverse_cons, get?_concat, get?_insert, Option.or_assoc]
    by_cases h : name = key <;> simp [h]

/-- The last value put under a name is the one that the table has for it. -/
theorem get?_ofPairs (pairs : List (String × α)) (name : String) :
    get? (ofPairs pairs) name = get? pairs.reverse name :=
  (get?_overlay [] pairs name).trans (Option.or_none)

theorem contains_iff (table : Table α) (name : String) :
    contains table name = true ↔ name ∈ table.map Prod.fst := by
  rw [contains, get?, List.lookup_isSome_iff, List.mem_map]
  simp only [beq_iff_eq]
  exact exists_congr fun entry => and_congr_right fun _ => eq_comm

/-- Where no name is listed twice, each entry is found under its name. -/
theorem get?_of_mem {table : Table α} {name : String} {value : α}
    (once : (table.map Prod.fst).Nodup) (listed : (name, value) ∈ table) :
    get? table name = some value := by
  induction table with
  | nil => cases listed
  | cons entry rest ih =>
    obtain ⟨key, old⟩ := entry
    rw [List.map_cons, List.nodup_cons] at once
    rw [get?_cons]
    by_cases h : name = key
    · subst h
      cases List.mem_cons.mp listed with
      | inl same => simp_all
      | inr later => exact absurd (List.mem_map_of_mem later) once.1
    · cases List.mem_cons.mp listed with
      | inl same => exact absurd (congrArg Prod.fst same) h
      | inr later => rw [if_neg h, ih once.2 later]

end Table
end Dialogue
