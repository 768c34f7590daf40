import Dialogue.Json.Record
import Mathlib.Data.List.Forall2
/-!
Members of records: what is found of the ones that were written, and how they read when some were
left out for their defaults.
-/
namespace Dialogue.Json

namespace Written

def find? (members : List (String × Written)) (name : String) : Option Value :=
  Table.get? (Table.ofPairs (toMembers members)) name

@[simp] theorem get?_toMembers (members : List (String × Written)) (name : String) :
    Table.get? (Table.ofPairs (toMembers members)) name = find? members name := rfl

theorem toValue_record (members : List (String × Written)) :
    (record members).toValue = .object (Table.ofPairs (toMembers members)) := by
  rw [toValue]

theorem toMembers_append (front back : List (String × Written)) :
    toMembers (front ++ back) = toMembers front ++ toMembers back := by
  induction front with
  | nil => rw [List.nil_append, toMembers, List.nil_append]
  | cons m rest ih => rw [List.cons_append, toMembers, ih, toMembers, List.cons_append]

theorem toValues_map {α : Type} (write : α → Written) (xs : List α) :
    toValues (xs.map write) = xs.map fun x => (write x).toValue := by
  induction xs with
  | nil => rw [List.map_nil, toValues, List.map_nil]
  | cons x rest ih => rw [List.map_cons, toValues, ih, List.map_cons]

theorem toValue_list {α : Type} (write : α → Written) (xs : List α) :
    (list (xs.map write)).toValue = .array (xs.map fun x => (write x).toValue) := by
  rw [toValue, toValues_map]

@[simp] theorem toValue_string (s : String) : (string s).toValue = .string s := by
  rw [string, toValue]

@[simp] theorem toValue_bool (b : Bool) : (bool b).toValue = .bool b := by rw [bool, toValue]

@[simp] theorem toValue_nat (n : Nat) : (nat n).toValue = .int n := by rw [nat, toValue]

@[simp] theorem toValue_int (i : Int) : (int i).toValue = .int i := by rw [int, toValue]

@[simp] theorem toValue_double (x : Double) : (double x).toValue = .number (.double x) := by
  rw [double, toValue]

@[simp] theorem toValue_table (t : Table Value) : (table t).toValue = .object t := by
  rw [table, toValue]

@[simp] theorem find?_nil (name : String) : find? [] name = none := by
  rw [find?, toMembers]
  rfl

@[simp] theorem find?_append (front back : List (String × Written)) (name : String) :
    find? (front ++ back) name = (find? back name).or (find? front name) := by
  rw [find?, find?, find?, Table.get?_ofPairs, Table.get?_ofPairs, Table.get?_ofPairs,
    toMembers_append, List.reverse_append]
  exact List.lookup_append

theorem find?_single (key name : String) (w : Written) :
    find? [(key, w)] name = if name = key then some w.toValue else none := by
  rw [find?, toMembers, toMembers, Table.get?_ofPairs]
  exact Table.get?_cons key name w.toValue []

@[simp] theorem find?_cons (key name : String) (w : Written) (rest : List (String × Written)) :
    find? ((key, w) :: rest) name =
      (find? rest name).or (if name = key then some w.toValue else none) := by
  rw [← List.singleton_append, find?_append, find?_single]

@[simp] theorem find?_optional {α : Type} (key name : String) (write : α → Written) (o : Option α) :
    find? (optional key write o) name =
      if name = key then o.map fun a => (write a).toValue else none := by
  cases o with
  | none => rw [optional, find?_nil]; simp
  | some a => rw [optional, find?_single]; rfl

theorem optional_names {α : Type} (key : String) (write : α → Written) (o : Option α) :
    ((optional key write o).map Prod.fst).Sublist [key] := by
  cases o with
  | none => exact List.nil_sublist _
  | some a => exact List.Sublist.refl _

end Written

/-- What was read first is put into what is read next. -/
theorem bind_reads {α β : Type} {o : Option α} {a : α} (h : o = some a) (f : α → Option β) :
    (o >>= f) = f a := by
  rw [h]
  rfl

/-- What holds of all that is read next holds of the whole. -/
theorem forall_bind {α β : Type} {o : Option α} {f : α → Option β} {P : β → Prop}
    (h : ∀ a, o = some a → ∀ b, f a = some b → P b) : ∀ b, (o >>= f) = some b → P b := by
  intro b hb
  obtain ⟨a, ha, hb⟩ := Option.bind_eq_some_iff.mp hb
  exact h a ha b hb

theorem member_none {α : Type} {ms : Table Value} {name : String} (absent : ms.get? name = none)
    (default : α) (decode : Decode α) : member ms name default decode = some default := by
  rw [member, absent]

theorem member_some {α : Type} {ms : Table Value} {name : String} {v : Value}
    (found : ms.get? name = some v) (default : α) (decode : Decode α) :
    member ms name default decode = decode v := by
  rw [member, found]

/-- Members are left out only where they have the default under their name, and what is kept has
changed only as is allowed under its name. -/
structure Omits (defaults : Table Value) (within : String → Value → Value → Prop)
    (ms ms' : Table Value) : Prop where
  kept : ∀ name v v', ms.get? name = some v → ms'.get? name = some v' → within name v v'
  left : ∀ name v, ms.get? name = some v → ms'.get? name = none → defaults.get? name = some v
  other : ∀ name, ms.get? name = none → ms'.get? name = none

def OmitsIn (defaults : Table Value) (within : String → Value → Value → Prop) (v v' : Value) :
    Prop :=
  ∃ ms ms', v = .object ms ∧ v' = .object ms' ∧ Omits defaults within ms ms'

def Each (within : Value → Value → Prop) (v v' : Value) : Prop :=
  ∃ vs vs', v = .array vs ∧ v' = .array vs' ∧ List.Forall₂ within vs vs'

theorem OmitsIn.omits {defaults : Table Value} {within : String → Value → Value → Prop}
    {members : List (String × Written)} {v' : Value}
    (h : OmitsIn defaults within (Written.record members).toValue v') :
    ∃ ms', v' = .object ms' ∧
      Omits defaults within (Table.ofPairs (Written.toMembers members)) ms' := by
  obtain ⟨ms, ms', hms, hv, h⟩ := h
  rw [Written.toValue_record] at hms
  cases hms
  exact ⟨ms', hv, h⟩

theorem member_reads_as {α : Type} {ms : Table Value} {name : String} {v : Value} {x : α}
    {decode : Decode α} (found : ms.get? name = some v) (reads : decode v = some x) (default : α) :
    member ms name default decode = some x := by
  rw [member_some found, reads]

theorem optionalMember_reads_as {α : Type} {ms : Table Value} {name : String} {write : α → Value}
    {decode : Decode α} {o : Option α} (found : ms.get? name = o.map write)
    (reads : ∀ a, Decode.optional decode (write a) = some (some a)) :
    optionalMember ms name decode = some o := by
  cases o with
  | none => exact member_none found none _
  | some a => exact member_reads_as found (reads a) none

theorem member_string {ms : Table Value} {name s : String} (found : ms.get? name = some (.string s))
    (default : String) : member ms name default Decode.string = some s := by
  rw [member_some found, Decode.string]

theorem optionalMember_string {ms : Table Value} {name : String} {o : Option String}
    (found : ms.get? name = o.map .string) : optionalMember ms name Decode.string = some o :=
  optionalMember_reads_as found fun _ => rfl

/-- What is read of a member is its default, or it is read of some value. -/
theorem member_reads {α : Type} {ms : Table Value} {name : String} {default x : α}
    {decode : Decode α} (h : member ms name default decode = some x) :
    default = x ∨ ∃ v, decode v = some x := by
  cases found : ms.get? name with
  | none =>
    rw [member_none found, Option.some.injEq] at h
    exact .inl h
  | some v =>
    rw [member_some found] at h
    exact .inr ⟨v, h⟩

/-- Each item of a list that was read is read of some value. -/
theorem list_reads {α : Type} {decode : Decode α} {v : Value} {xs : List α}
    (h : Decode.list decode v = some xs) {x : α} (listed : x ∈ xs) : ∃ w, decode w = some x := by
  cases v with
  | array items =>
    rw [Decode.list] at h
    induction items generalizing xs with
    | nil =>
      cases h
      cases listed
    | cons item rest ih =>
      simp only [List.mapM_cons, Option.bind_eq_bind, Option.bind_eq_some_iff, Option.pure_def,
        Option.some.injEq] at h
      obtain ⟨y, hy, ys, hys, rfl⟩ := h
      cases listed with
      | head => exact ⟨item, hy⟩
      | tail _ later => exact ih later hys
  | _ => cases h

theorem int_reads {low high i : Int} {v : Value} (h : Decode.int low high v = some i) :
    low ≤ i ∧ i ≤ high := by
  unfold Decode.int at h
  split at h
  · split at h
    · cases h
      assumption
    · cases h
  · cases h

theorem OmitsIn.refl {defaults : Table Value} {within : String → Value → Value → Prop}
    {members : List (String × Written)}
    (whole : ∀ name v, Written.find? members name = some v → within name v v) :
    OmitsIn defaults within (Written.record members).toValue (Written.record members).toValue := by
  rw [Written.toValue_record]
  refine ⟨_, _, rfl, rfl, ⟨?_, ?_, fun _ absent => absent⟩⟩
  · intro name v v' hv hv'
    rw [hv, Option.some.injEq] at hv'
    subst hv'
    exact whole name v hv
  · intro name v hv hv'
    rw [hv] at hv'
    cases hv'

theorem Each.refl {α : Type} {within : Value → Value → Prop} {write : α → Value}
    (whole : ∀ x, within (write x) (write x)) (xs : List α) :
    Each within (.array (xs.map write)) (.array (xs.map write)) := by
  refine ⟨_, _, rfl, rfl, ?_⟩
  rw [List.forall₂_same]
  intro v listed
  obtain ⟨x, -, rfl⟩ := List.mem_map.mp listed
  exact whole x

namespace Omits
variable {defaults : Table Value} {within : String → Value → Value → Prop} {ms ms' : Table Value}
  {α : Type} {decode : Decode α} {name : String} {v : Value} {x d : α}

theorem member (h : Omits defaults within ms ms') (found : ms.get? name = some v)
    (reads : ∀ v', within name v v' → decode v' = some x)
    (standard : defaults.get? name = some v → d = x) : Json.member ms' name d decode = some x := by
  cases h' : ms'.get? name with
  | none =>
    have hd : d = x := standard (h.left name v found h')
    rw [member_none h', hd]
  | some v' =>
    have hwithin := h.kept name v v' found h'
    rw [member_some h', reads v' hwithin]

/-- A member may be written again, changed as is allowed under its name. -/
theorem insert {v' : Value} (h : Omits defaults within ms ms') (found : ms.get? name = some v)
    (changed : within name v v') : Omits defaults within ms (Table.insert ms' name v') where
  kept other w w' hw hw' := by
    rw [Table.get?_insert] at hw'
    by_cases hname : other = name
    · subst hname
      rw [if_pos rfl, Option.some.injEq] at hw'
      rw [found, Option.some.injEq] at hw
      rw [← hw, ← hw']
      exact changed
    · rw [if_neg hname] at hw'
      exact h.kept other w w' hw hw'
  left other w hw hw' := by
    rw [Table.get?_insert] at hw'
    by_cases hname : other = name
    · rw [if_pos hname] at hw'
      cases hw'
    · rw [if_neg hname] at hw'
      exact h.left other w hw hw'
  other other hw := by
    have hname : other ≠ name := by
      rintro rfl
      rw [found] at hw
      cases hw
    rw [Table.get?_insert, if_neg hname]
    exact h.other other hw

/-- A member that is read as it was written, and its default likewise. -/
theorem plain (h : Omits defaults within ms ms') (write : α → Value)
    (reads : decode (write x) = some x) (reads_default : decode (write d) = some d)
    (whole : ∀ v v', within name v v' → v' = v) (found : ms.get? name = some (write x))
    (standard : defaults.get? name = some (write d)) :
    Json.member ms' name d decode = some x := by
  apply h.member found
  · intro v' hv'
    rw [whole _ v' hv', reads]
  · intro same
    rw [standard, Option.some.injEq] at same
    rw [same, reads, Option.some.injEq] at reads_default
    exact reads_default.symm

theorem string {x d : String} (h : Omits defaults within ms ms')
    (whole : ∀ v v', within name v v' → v' = v) (found : ms.get? name = some (.string x))
    (standard : defaults.get? name = some (.string d)) :
    Json.member ms' name d Decode.string = some x :=
  h.plain .string rfl rfl whole found standard

/-- A member that may be absent has no default. -/
theorem optional (h : Omits defaults within ms ms') (write : α → Value) {o : Option α}
    (reads : ∀ a, Decode.optional decode (write a) = some (some a))
    (whole : ∀ v v', within name v v' → v' = v) (found : ms.get? name = o.map write)
    (free : defaults.get? name = none) : optionalMember ms' name decode = some o := by
  cases o with
  | none => exact member_none (h.other name found) none _
  | some a =>
    apply h.member found
    · intro v' hv'
      rw [whole _ v' hv', reads]
    · intro standard
      rw [free] at standard
      cases standard

theorem optionalString {o : Option String} (h : Omits defaults within ms ms')
    (whole : ∀ v v', within name v v' → v' = v) (found : ms.get? name = o.map .string)
    (free : defaults.get? name = none) : optionalMember ms' name Decode.string = some o :=
  h.optional .string (fun _ => rfl) whole found free

end Omits

/-- A list reads as its items do. -/
theorem Each.reads {α : Type} {within : Value → Value → Prop} {write : α → Value}
    {decode : Decode α} {xs : List α} {v' : Value}
    (reads : ∀ x ∈ xs, ∀ v, within (write x) v → decode v = some x)
    (h : Each within (.array (xs.map write)) v') : Decode.list decode v' = some xs := by
  obtain ⟨vs, vs', hvs, rfl, each⟩ := h
  cases hvs
  rw [Decode.list]
  induction xs generalizing vs' with
  | nil =>
    cases each
    rfl
  | cons x rest ih =>
    obtain ⟨v, vs, hv, hrest, rfl⟩ := List.forall₂_cons_left_iff.mp each
    have hx := reads x List.mem_cons_self v hv
    have hmore := ih (fun y hy => reads y (List.mem_cons_of_mem x hy)) vs hrest
    rw [List.mapM_cons, hx, hmore]
    rfl

theorem list_map {α : Type} {write : α → Value} {decode : Decode α} {xs : List α}
    (reads : ∀ x ∈ xs, decode (write x) = some x) :
    Decode.list decode (.array (xs.map write)) = some xs := by
  rw [Decode.list]
  induction xs with
  | nil => rfl
  | cons x rest ih =>
    have first := reads x List.mem_cons_self
    have others := ih fun y listed => reads y (List.mem_cons_of_mem x listed)
    rw [List.map_cons, List.mapM_cons, first, others]
    rfl

/-- A list of which the items may have changed, if it is not left out itself. -/
theorem Omits.list {α : Type} {defaults : Table Value} {within : String → Value → Value → Prop}
    {inner : Value → Value → Prop} {ms ms' : Table Value} {name : String} {write : α → Value}
    {decode : Decode α} {xs : List α} (h : Omits defaults within ms ms')
    (each : ∀ v v', within name v v' → Each inner v v')
    (reads : ∀ x ∈ xs, ∀ v, inner (write x) v → decode v = some x)
    (found : ms.get? name = some (.array (xs.map write)))
    (standard : defaults.get? name = some (.array [])) :
    Json.member ms' name [] (Decode.list decode) = some xs := by
  apply h.member found
  · intro v' hv'
    exact Each.reads reads (each _ v' hv')
  · intro none
    rw [standard, Option.some.injEq, Value.array.injEq] at none
    exact (List.map_eq_nil_iff.mp none.symm).symm

end Dialogue.Json
