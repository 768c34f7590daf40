import Dialogue.Flow.Schema
import Dialogue.Proofs.Members
/-!
Nodes of which members with default values are left out, at any depth of their own records. Main
statement: a document that lists such a node is read with the whole node at that place. Its type
may be left out only in a document that is written by name.
-/
namespace Dialogue.Flow

open Json (Value Written Decode Omits OmitsIn Each member optionalMember forall_bind)

namespace Requirement

def defaults : Table Value := [("type", .string "prompt"), ("condition", .string "")]

def Omitted : Value → Value → Prop := OmitsIn defaults fun _ v v' => v' = v

theorem omitted_refl (r : Requirement) : Omitted r.toWritten.toValue r.toWritten.toValue :=
  OmitsIn.refl fun _ _ _ => rfl

theorem ofValue_omitted (r : Requirement) {v : Value} (h : Omitted r.toWritten.toValue v) :
    ofValue v = some r := by
  obtain ⟨ms, rfl, left⟩ := OmitsIn.omits h
  have judged : member ms "type" .byPrompt Judged.ofValue = some r.judged := by
    apply left.plain (fun j : Judged => .string j.name) _ rfl (fun _ _ same => same) (by simp) rfl
    cases r.judged <;> rfl
  have text : member ms "condition" "" Decode.string = some r.text :=
    left.string (fun _ _ same => same) (by simp) rfl
  have description : optionalMember ms "description" Decode.string = some r.description :=
    left.optionalString (fun _ _ same => same) (by simp) rfl
  simp [ofValue, Decode.record, judged, text, description]

end Requirement

namespace Edge

def defaults : Table Value :=
  [("id", .string ""), ("target_node_id", .string ""), ("conditions", .array []),
    ("is_default", .bool false), ("priority", .int 0)]

def within : String → Value → Value → Prop
  | "conditions" => Each Requirement.Omitted
  | _ => fun v v' => v' = v

def Omitted : Value → Value → Prop := OmitsIn defaults within

theorem within_same {name : String} (other : name ≠ "conditions") (v : Value) :
    within name v v := by
  unfold within
  split
  · exact absurd rfl other
  · rfl

theorem omitted_refl (e : Edge) : Omitted e.toWritten.toValue e.toWritten.toValue := by
  apply OmitsIn.refl
  intro name v found
  by_cases conditions : name = "conditions"
  · subst conditions
    have same : some (.array (e.requirements.map fun r => r.toWritten.toValue)) = some v := by
      simpa [Written.toValue_list] using found
    cases same
    exact Each.refl Requirement.omitted_refl e.requirements
  · exact within_same conditions v

def Fits (e : Edge) : Prop := -twoTo 31 ≤ e.priority ∧ e.priority ≤ twoTo 31 - 1

theorem fits_of_reads {v : Value} : ∀ e, ofValue v = some e → e.Fits := by
  unfold ofValue
  refine forall_bind fun ms _ => forall_bind fun id _ => forall_bind fun target _ =>
    forall_bind fun requirements _ => forall_bind fun isDefault _ =>
    forall_bind fun priority hpriority e whole => ?_
  cases whole
  cases Json.member_reads hpriority with
  | inl zero =>
    simp only [Fits, ← zero]
    decide
  | inr read =>
    obtain ⟨w, hw⟩ := read
    exact Json.int_reads hw

theorem ofValue_omitted {e : Edge} (fits : e.Fits) {v : Value} (h : Omitted e.toWritten.toValue v) :
    ofValue v = some e := by
  obtain ⟨ms, rfl, left⟩ := OmitsIn.omits h
  have id : member ms "id" "" Decode.string = some e.id :=
    left.string (fun _ _ same => same) (by simp) rfl
  have target : member ms "target_node_id" "" Decode.string = some e.target :=
    left.string (fun _ _ same => same) (by simp) rfl
  have requirements : member ms "conditions" [] (Decode.list Requirement.ofValue) =
      some e.requirements :=
    left.list (fun _ _ each => each) (fun r _ _ => r.ofValue_omitted)
      (by simp [Written.toValue_list]) rfl
  have isDefault : member ms "is_default" false Decode.bool = some e.isDefault :=
    left.plain .bool rfl rfl (fun _ _ same => same) (by simp) rfl
  have priority : member ms "priority" 0 (Decode.int (-twoTo 31) (twoTo 31 - 1)) =
      some e.priority :=
    left.plain .int (if_pos fits) (by decide) (fun _ _ same => same) (by simp) rfl
  simp [ofValue, Decode.record, id, target, requirements, isDefault, priority]

end Edge

namespace Example

def defaults : Table Value := [("user", .string ""), ("agent", .string "")]

def Omitted : Value → Value → Prop := OmitsIn defaults fun _ v v' => v' = v

theorem omitted_refl (e : Example) : Omitted e.toWritten.toValue e.toWritten.toValue :=
  OmitsIn.refl fun _ _ _ => rfl

theorem ofValue_omitted (e : Example) {v : Value} (h : Omitted e.toWritten.toValue v) :
    ofValue v = some e := by
  obtain ⟨ms, rfl, left⟩ := OmitsIn.omits h
  have user : member ms "user" "" Decode.string = some e.user :=
    left.string (fun _ _ same => same) (by simp) rfl
  have agent : member ms "agent" "" Decode.string = some e.agent :=
    left.string (fun _ _ same => same) (by simp) rfl
  simp [ofValue, Decode.record, user, agent]

end Example

namespace Wanted

def defaults : Table Value :=
  [("name", .string ""), ("description", .string ""), ("type", .string "string")]

def Omitted : Value → Value → Prop := OmitsIn defaults fun _ v v' => v' = v

theorem omitted_refl (w : Wanted) : Omitted w.toWritten.toValue w.toWritten.toValue :=
  OmitsIn.refl fun _ _ _ => rfl

theorem ofValue_omitted (w : Wanted) {v : Value} (h : Omitted w.toWritten.toValue v) :
    ofValue v = some w := by
  obtain ⟨ms, rfl, left⟩ := OmitsIn.omits h
  have name : member ms "name" "" Decode.string = some w.name :=
    left.string (fun _ _ same => same) (by simp) rfl
  have description : member ms "description" "" Decode.string = some w.description :=
    left.string (fun _ _ same => same) (by simp) rfl
  have type : member ms "type" "string" Decode.string = some w.type :=
    left.string (fun _ _ same => same) (by simp) rfl
  simp [ofValue, Decode.record, name, description, type]

end Wanted

def NodeKind.defaults : NodeKind → Table Value
  | conversation _ =>
    [("instruction", .string ""), ("extract_variables", .array []), ("auto_respond", .bool true),
      ("examples", .array [])]
  | call _ => [("function_name", .string ""), ("parameters", .object [])]
  | split => []
  | ending _ =>
    [("message", .string "Thank you for using our service. Goodbye!"),
      ("end_reason", .string "completed")]
  | transfer _ =>
    [("message", .string "Let me connect you with a human agent."),
      ("transfer_reason", .string "user_request")]
  | extraction _ => [("variables", .array [])]

def NodeKind.names : NodeKind → List String
  | conversation _ =>
    ["instruction", "extract_variables", "response_template", "auto_respond", "examples"]
  | call _ =>
    ["function_name", "parameters", "result_variable", "pending_message", "success_message",
      "failure_message"]
  | split => []
  | ending _ => ["message", "end_reason"]
  | transfer _ => ["message", "destination", "transfer_reason"]
  | extraction _ => ["variables", "extraction_prompt"]

theorem NodeKind.toMembers_names (kind : NodeKind) :
    (kind.toMembers.map Prod.fst).Sublist kind.names := by
  cases kind with
  | conversation c =>
    rw [toMembers, List.map_append, List.map_append]
    exact ((List.Sublist.refl _).append (Written.optional_names _ _ _)).append (List.Sublist.refl _)
  | call c =>
    simp only [toMembers, List.map_append]
    exact ((((List.Sublist.refl _).append (Written.optional_names _ _ _)).append
      (Written.optional_names _ _ _)).append (Written.optional_names _ _ _)).append
      (Written.optional_names _ _ _)
  | split => exact List.Sublist.refl _
  | ending e => exact List.Sublist.refl _
  | transfer t =>
    rw [toMembers, List.map_append, List.map_append]
    exact ((List.Sublist.refl _).append (Written.optional_names _ _ _)).append (List.Sublist.refl _)
  | extraction x =>
    rw [toMembers, List.map_append]
    exact (List.Sublist.refl _).append (Written.optional_names _ _ _)

namespace Node

def defaults (kind : NodeKind) : Table Value :=
  [("id", .string ""), ("name", .string ""), ("edges", .array []),
    ("type", .string "conversation")] ++ kind.defaults

def within : String → Value → Value → Prop
  | "edges" => Each Edge.Omitted
  | "examples" => Each Example.Omitted
  | "variables" => Each Wanted.Omitted
  | _ => fun v v' => v' = v

theorem within_same {name : String} (notEdges : name ≠ "edges") (notExamples : name ≠ "examples")
    (notVariables : name ≠ "variables") (v : Value) : within name v v := by
  unfold within
  split
  · exact absurd rfl notEdges
  · exact absurd rfl notExamples
  · exact absurd rfl notVariables
  · rfl

def Omitted (kind : NodeKind) : Value → Value → Prop := OmitsIn (defaults kind) within

def Fits (n : Node) : Prop := ∀ e ∈ n.edges, e.Fits

theorem fits_of_reads {v : Value} : ∀ n, ofValue v = some n → n.Fits := by
  unfold ofValue
  refine forall_bind fun ms _ => forall_bind fun id _ => forall_bind fun name _ =>
    forall_bind fun description _ => forall_bind fun edges hedges => forall_bind fun model _ =>
    forall_bind fun temperature _ => forall_bind fun kind _ n whole => ?_
  cases whole
  intro e listed
  cases Json.member_reads hedges with
  | inl none =>
    rw [← none] at listed
    cases listed
  | inr read =>
    obtain ⟨w, hw⟩ := read
    obtain ⟨u, hu⟩ := Json.list_reads hw listed
    exact Edge.fits_of_reads e hu

abbrev own : List String :=
  ["id", "name", "description", "edges", "llm_model", "temperature", "type"]

/-- No kind has a member of the name of one that every node has. -/
theorem own_free (kind : NodeKind) {name : String} (h : name ∈ own) :
    Written.find? kind.toMembers name = none := by
  simp only [own, List.mem_cons, List.not_mem_nil, or_false] at h
  cases kind <;> obtain rfl | rfl | rfl | rfl | rfl | rfl | rfl := h <;> simp [NodeKind.toMembers]

/-- The members of a node of a kind, without some that have their default, but with its type. -/
structure Carries (kind : NodeKind) (ms ms' : Table Value) : Prop where
  omits : Omits (defaults kind) within ms ms'
  has : ∀ name ∉ own, ms.get? name = Written.find? kind.toMembers name
  typed : ms'.get? "type" = some (.string kind.name)

namespace Carries
variable {kind : NodeKind} {ms ms' : Table Value} {name : String}

theorem string {x d : String} (h : Carries kind ms ms') (free : name ∉ own)
    (whole : ∀ v v', within name v v' → v' = v)
    (found : Written.find? kind.toMembers name = some (.string x))
    (standard : (defaults kind).get? name = some (.string d)) :
    member ms' name d Decode.string = some x :=
  h.omits.string whole ((h.has name free).trans found) standard

theorem optionalString {o : Option String} (h : Carries kind ms ms') (free : name ∉ own)
    (whole : ∀ v v', within name v v' → v' = v)
    (found : Written.find? kind.toMembers name = o.map .string)
    (none : (defaults kind).get? name = none) :
    optionalMember ms' name Decode.string = some o :=
  h.omits.optionalString whole ((h.has name free).trans found) none

theorem conversation {c : Conversation} (h : Carries (.conversation c) ms ms') :
    NodeKind.ofMembers ms' = some (.conversation c) := by
  have tag : NodeKind.ofTag (.string "conversation") = some (.conversation .standard) := rfl
  have instruction : member ms' "instruction" "" Decode.string = some c.instruction :=
    h.string (by decide) (fun _ _ same => same) (by simp [NodeKind.toMembers]) rfl
  have extracted : member ms' "extract_variables" [] (Decode.list Decode.string) =
      some c.extracted := by
    refine h.omits.plain (fun xs => .array (xs.map Value.string)) ?_ rfl
      (fun _ _ same => same) ?_ rfl
    · apply Json.list_map
      intro name listed
      rfl
    · rw [h.has _ (by decide)]
      simp [NodeKind.toMembers, Written.toValue_list]
  have template : optionalMember ms' "response_template" Decode.string = some c.template :=
    h.optionalString (by decide) (fun _ _ same => same) (by simp [NodeKind.toMembers]) rfl
  have speaksFirst : member ms' "auto_respond" true Decode.bool = some c.speaksFirst := by
    refine h.omits.plain .bool rfl rfl (fun _ _ same => same) ?_ rfl
    rw [h.has _ (by decide)]
    simp [NodeKind.toMembers]
  have examples : member ms' "examples" [] (Decode.list Example.ofValue) = some c.examples := by
    refine h.omits.list (fun _ _ each => each) (fun e _ _ => e.ofValue_omitted) ?_ rfl
    rw [h.has _ (by decide)]
    simp [NodeKind.toMembers, Written.toValue_list]
  simp [NodeKind.ofMembers, h.typed, NodeKind.name, tag, Conversation.standard, instruction,
    extracted, template, speaksFirst, examples]

theorem call {c : Call} (h : Carries (.call c) ms ms') :
    NodeKind.ofMembers ms' = some (.call c) := by
  have tag : NodeKind.ofTag (.string "function") = some (.call .standard) := rfl
  have function : member ms' "function_name" "" Decode.string = some c.function :=
    h.string (by decide) (fun _ _ same => same) (by simp [NodeKind.toMembers]) rfl
  have parameters : member ms' "parameters" [] Decode.object = some c.parameters := by
    refine h.omits.plain .object rfl rfl (fun _ _ same => same) ?_ rfl
    rw [h.has _ (by decide)]
    simp [NodeKind.toMembers]
  have result : optionalMember ms' "result_variable" Decode.string = some c.result :=
    h.optionalString (by decide) (fun _ _ same => same) (by simp [NodeKind.toMembers]) rfl
  have pending : optionalMember ms' "pending_message" Decode.string = some c.pendingMessage :=
    h.optionalString (by decide) (fun _ _ same => same) (by simp [NodeKind.toMembers]) rfl
  have success : optionalMember ms' "success_message" Decode.string = some c.successMessage :=
    h.optionalString (by decide) (fun _ _ same => same) (by simp [NodeKind.toMembers]) rfl
  have failure : optionalMember ms' "failure_message" Decode.string = some c.failureMessage :=
    h.optionalString (by decide) (fun _ _ same => same) (by simp [NodeKind.toMembers]) rfl
  simp [NodeKind.ofMembers, h.typed, NodeKind.name, tag, Call.standard, function, parameters,
    result, pending, success, failure]

theorem split (h : Carries .split ms ms') : NodeKind.ofMembers ms' = some .split := by
  have tag : NodeKind.ofTag (.string "logic_split") = some .split := rfl
  simp [NodeKind.ofMembers, h.typed, NodeKind.name, tag]

theorem ending {e : Ending} (h : Carries (.ending e) ms ms') :
    NodeKind.ofMembers ms' = some (.ending e) := by
  have tag : NodeKind.ofTag (.string "end") = some (.ending .standard) := rfl
  have message : member ms' "message" Ending.standard.message Decode.string = some e.message :=
    h.string (by decide) (fun _ _ same => same) (by simp [NodeKind.toMembers]) rfl
  have reason : member ms' "end_reason" Ending.standard.reason Decode.string = some e.reason :=
    h.string (by decide) (fun _ _ same => same) (by simp [NodeKind.toMembers]) rfl
  simp [NodeKind.ofMembers, h.typed, NodeKind.name, tag, message, reason]

theorem transfer {t : Transfer} (h : Carries (.transfer t) ms ms') :
    NodeKind.ofMembers ms' = some (.transfer t) := by
  have tag : NodeKind.ofTag (.string "transfer") = some (.transfer .standard) := rfl
  have message : member ms' "message" Transfer.standard.message Decode.string = some t.message :=
    h.string (by decide) (fun _ _ same => same) (by simp [NodeKind.toMembers]) rfl
  have destination : optionalMember ms' "destination" Decode.string = some t.destination :=
    h.optionalString (by decide) (fun _ _ same => same) (by simp [NodeKind.toMembers]) rfl
  have reason : member ms' "transfer_reason" Transfer.standard.reason Decode.string =
      some t.reason :=
    h.string (by decide) (fun _ _ same => same) (by simp [NodeKind.toMembers]) rfl
  simp [NodeKind.ofMembers, h.typed, NodeKind.name, tag, message, destination, reason]

theorem extraction {x : Extraction} (h : Carries (.extraction x) ms ms') :
    NodeKind.ofMembers ms' = some (.extraction x) := by
  have tag : NodeKind.ofTag (.string "extract_variable") = some (.extraction .standard) := rfl
  have wanted : member ms' "variables" [] (Decode.list Wanted.ofValue) = some x.wanted := by
    refine h.omits.list (fun _ _ each => each) (fun w _ _ => w.ofValue_omitted) ?_ rfl
    rw [h.has _ (by decide)]
    simp [NodeKind.toMembers, Written.toValue_list]
  have prompt : optionalMember ms' "extraction_prompt" Decode.string = some x.prompt :=
    h.optionalString (by decide) (fun _ _ same => same) (by simp [NodeKind.toMembers]) rfl
  simp [NodeKind.ofMembers, h.typed, NodeKind.name, tag, Extraction.standard, wanted, prompt]

theorem ofMembers (h : Carries kind ms ms') : NodeKind.ofMembers ms' = some kind := by
  cases kind with
  | conversation c => exact h.conversation
  | call c => exact h.call
  | split => exact h.split
  | ending e => exact h.ending
  | transfer t => exact h.transfer
  | extraction x => exact h.extraction

end Carries

/-- No two members of a node have one name: those of its kind have none that a node has of its
own. -/
theorem toMembers_nodup (n : Node) : (n.toMembers.map Prod.fst).Nodup := by
  have names : (n.toMembers.map Prod.fst).Sublist (own ++ n.kind.names) := by
    simp only [toMembers, List.map_append]
    exact ((((((List.Sublist.refl _).append (Written.optional_names _ _ _)).append
      (List.Sublist.refl _)).append (Written.optional_names _ _ _)).append
      (Written.optional_names _ _ _)).append (List.Sublist.refl _)).append n.kind.toMembers_names
  apply names.nodup
  cases n.kind <;> simp [own, NodeKind.names]

/-- A node is read back after members with defaults were left out of it, but not its type. -/
theorem ofValue_typed {n : Node} (fits : n.Fits) {ms : Table Value}
    (h : Omits (defaults n.kind) within (Table.ofPairs (Written.toMembers n.toMembers)) ms)
    (typed : ms.get? "type" = some (.string n.kind.name)) : ofValue (.object ms) = some n := by
  have id : member ms "id" "" Decode.string = some n.id :=
    h.string (fun _ _ same => same) (by simp [toMembers, own_free]) rfl
  have name : member ms "name" "" Decode.string = some n.name :=
    h.string (fun _ _ same => same) (by simp [toMembers, own_free]) rfl
  have description : optionalMember ms "description" Decode.string = some n.description :=
    h.optionalString (fun _ _ same => same) (by simp [toMembers, own_free])
      (by cases n.kind <;> rfl)
  have edges : member ms "edges" [] (Decode.list Edge.ofValue) = some n.edges :=
    h.list (fun _ _ each => each) (fun e listed _ => Edge.ofValue_omitted (fits e listed))
      (by simp [toMembers, own_free, Written.toValue_list]) rfl
  have model : optionalMember ms "llm_model" Decode.string = some n.model :=
    h.optionalString (fun _ _ same => same) (by simp [toMembers, own_free])
      (by cases n.kind <;> rfl)
  have temperature : optionalMember ms "temperature" Decode.double = some n.temperature :=
    h.optional (fun x => .number (.double x)) (fun _ => rfl) (fun _ _ same => same)
      (by simp [toMembers, own_free]) (by cases n.kind <;> rfl)
  have carries : Carries n.kind (Table.ofPairs (Written.toMembers n.toMembers)) ms := by
    refine ⟨h, fun name free => ?_, typed⟩
    simp only [own, List.mem_cons, List.not_mem_nil, or_false, not_or] at free
    simp [toMembers, free]
  have kind : NodeKind.ofMembers ms = some n.kind := carries.ofMembers
  simp [ofValue, Decode.object, id, name, description, edges, model, temperature, kind]

theorem omitted_refl (n : Node) : Omitted n.kind n.toWritten.toValue n.toWritten.toValue := by
  apply OmitsIn.refl
  intro name v found
  by_cases isEdges : name = "edges"
  · subst isEdges
    have same : some (.array (n.edges.map fun e => e.toWritten.toValue)) = some v := by
      simpa [toMembers, own_free, Written.toValue_list] using found
    cases same
    exact Each.refl Edge.omitted_refl n.edges
  by_cases isExamples : name = "examples"
  · subst isExamples
    have same : Written.find? n.kind.toMembers "examples" = some v := by
      simpa [toMembers] using found
    cases kind : n.kind <;> simp [kind, NodeKind.toMembers, Written.toValue_list] at same
    next c =>
      cases same
      exact Each.refl Example.omitted_refl c.examples
  by_cases isVariables : name = "variables"
  · subst isVariables
    have same : Written.find? n.kind.toMembers "variables" = some v := by
      simpa [toMembers] using found
    cases kind : n.kind <;> simp [kind, NodeKind.toMembers, Written.toValue_list] at same
    next x =>
      cases same
      exact Each.refl Wanted.omitted_refl x.wanted
  exact within_same isEdges isExamples isVariables v

def Typed (v : Value) : Prop := ∃ ms, v = .object ms ∧ Table.contains ms "type" = true

theorem withType_typed {v : Value} (h : Typed v) : Document.withType v = v := by
  obtain ⟨ms, rfl, typed⟩ := h
  exact if_pos typed

theorem ofValue_untyped {v : Value} (h : ¬ Typed v) : ofValue v = none := by
  cases v with
  | object ms =>
    have absent : Table.get? ms "type" = none := by
      cases found : Table.get? ms "type" with
      | none => rfl
      | some v => exact absurd ⟨ms, rfl, by simp [Table.contains, found]⟩ h
    simp [ofValue, Decode.object, NodeKind.ofMembers, absent]
  | _ => rfl

/-- A node is read back after members with defaults were left out of it, once it has a type. -/
theorem ofValue_omitted {n : Node} (fits : n.Fits) {v : Value}
    (h : Omitted n.kind n.toWritten.toValue v) : ofValue (Document.withType v) = some n := by
  obtain ⟨ms, rfl, left⟩ := OmitsIn.omits h
  change Omits _ _ (Table.ofPairs (Written.toMembers n.toMembers)) ms at left
  have written : (Table.ofPairs (Written.toMembers n.toMembers)).get? "type" =
      some (.string n.kind.name) := by simp [toMembers, own_free]
  cases typed : Table.get? ms "type" with
  | some v =>
    have same : v = .string n.kind.name := left.kept "type" _ v written typed
    rw [withType_typed ⟨ms, rfl, by simp [Table.contains, typed]⟩]
    exact ofValue_typed fits left (by rw [typed, same])
  | none =>
    -- Only a conversation has its type for a default, and that is the type which is put in.
    have conversation : n.kind.name = "conversation" := by
      have standard : some (.string "conversation") = some (Value.string n.kind.name) :=
        left.left "type" _ written typed
      simpa using standard.symm
    have untyped : Document.withType (.object ms) =
        .object (Table.insert ms "type" (.string n.kind.name)) := by
      simp [Document.withType, Table.contains, typed, conversation]
    rw [untyped]
    apply ofValue_typed fits (left.insert written rfl)
    rw [Table.get?_insert, if_pos rfl]

end Node

namespace Document

inductive Lists (nodes : List Value) : Value → Prop where
  | byName {ms : Table Value} (found : ms.get? "nodes" = some (.array nodes)) :
    Lists nodes (.object ms)
  | inOrder (a b c d e f : Value) (rest : List Value) :
    Lists nodes (.array (a :: b :: c :: d :: e :: f :: .array nodes :: rest))

def relist (nodes : List Value) : Value → Value
  | .object ms => .object (Table.insert ms "nodes" (.array nodes))
  | .array (a :: b :: c :: d :: e :: f :: _ :: rest) =>
    .array (a :: b :: c :: d :: e :: f :: .array nodes :: rest)
  | v => v

def outline (ms : Table Value) : Option Document := do
  let id ← member ms "id" "" Decode.string
  let name ← member ms "name" "" Decode.string
  let version ← member ms "version" "1.0.0" Decode.string
  let description ← optionalMember ms "description" Decode.string
  let settings ← member ms "global_settings" .standard Settings.ofValue
  let start ← member ms "start_node_id" "" Decode.string
  let createdAt ← optionalMember ms "created_at" Decode.string
  let updatedAt ← optionalMember ms "updated_at" Decode.string
  some ⟨id, name, version, description, settings, start, [], createdAt, updatedAt⟩

theorem outline_congr {ms ms' : Table Value}
    (same : ∀ name, name ≠ "nodes" → ms.get? name = ms'.get? name) : outline ms = outline ms' := by
  simp [outline, member, optionalMember, same]

/-- A document is read as its outline and its nodes are. -/
theorem ofValue_record {v : Value} {ms : Table Value} {nodes : List Value}
    (record : Decode.record names (withTypes v) = some ms)
    (found : ms.get? "nodes" = some (.array nodes)) :
    ofValue v = (outline ms).bind fun d =>
      (nodes.mapM Node.ofValue).map fun ns => { d with nodes := ns } := by
  have read : member ms "nodes" [] (Decode.list Node.ofValue) = nodes.mapM Node.ofValue := by
    rw [member, found]
    rfl
  simp only [ofValue, record, outline, read, Option.bind_eq_bind, Option.bind_some,
    Option.bind_assoc]
  cases nodes.mapM Node.ofValue <;> simp

/-- The nodes as they are read: those of a document that is written by name get a type. -/
def prepared (v : Value) (nodes : List Value) : List Value :=
  match v with
  | .object _ => nodes.map withType
  | _ => nodes

theorem ofValue_byName {ms : Table Value} {nodes : List Value}
    (found : ms.get? "nodes" = some (.array nodes)) :
    ofValue (.object ms) = (outline ms).bind fun d =>
      ((nodes.map withType).mapM Node.ofValue).map fun ns => { d with nodes := ns } := by
  have record : Decode.record names (withTypes (.object ms)) =
      some (Table.insert ms "nodes" (.array (nodes.map withType))) := by
    simp [withTypes, found, Decode.record]
  have outside : outline (Table.insert ms "nodes" (.array (nodes.map withType))) = outline ms := by
    apply outline_congr
    intro name other
    rw [Table.get?_insert, if_neg other]
  rw [ofValue_record record (by rw [Table.get?_insert, if_pos rfl]), outside]

theorem ofValue_inOrder (a b c d e f : Value) (nodes rest : List Value) :
    ofValue (.array (a :: b :: c :: d :: e :: f :: .array nodes :: rest)) =
      ((Decode.record names (.array (a :: b :: c :: d :: e :: f :: .array [] :: rest))).bind
        outline).bind fun d =>
          (nodes.mapM Node.ofValue).map fun ns => { d with nodes := ns } := by
  let items (nodes : List Value) := a :: b :: c :: d :: e :: f :: .array nodes :: rest
  by_cases few : rest.length ≤ 2
  · have record (nodes : List Value) : Decode.record names (.array (items nodes)) =
        some (names.zip (items nodes)) := by
      apply if_pos
      simp only [items, names, List.length_cons, List.length_nil]
      omega
    have found : Table.get? (names.zip (items nodes)) "nodes" = some (.array nodes) := by
      simp [names, items, Table.get?_cons]
    have outside : outline (names.zip (items nodes)) = outline (names.zip (items [])) := by
      apply outline_congr
      intro name other
      simp [names, items, Table.get?_cons, other]
    have read : ofValue (.array (items nodes)) = _ := ofValue_record (record nodes) found
    rw [outside] at read
    rw [record []]
    exact read
  · have record (nodes : List Value) : Decode.record names (.array (items nodes)) = none := by
      apply if_neg
      simp only [items, names, List.length_cons, List.length_nil]
      omega
    have unread : ofValue (.array (items nodes)) = none := by simp [ofValue, withTypes, record]
    rw [record []]
    exact unread

/-- A document of which the nodes are replaced is read alike in all that it has besides them. -/
theorem ofValue_relist {v : Value} {nodes : List Value} (h : Lists nodes v) :
    ∃ o : Option Document,
      (ofValue v = o.bind fun d =>
        ((prepared v nodes).mapM Node.ofValue).map fun ns => { d with nodes := ns }) ∧
      ∀ others, ofValue (relist others v) = o.bind fun d =>
        ((prepared v others).mapM Node.ofValue).map fun ns => { d with nodes := ns } := by
  cases h with
  | @byName ms found =>
    refine ⟨outline ms, ofValue_byName found, fun others => ?_⟩
    have outside : outline (Table.insert ms "nodes" (.array others)) = outline ms := by
      apply outline_congr
      intro name other
      rw [Table.get?_insert, if_neg other]
    rw [relist, ofValue_byName (by rw [Table.get?_insert, if_pos rfl]), outside]
    rfl
  | inOrder a b c d e f rest =>
    exact ⟨_, ofValue_inOrder a b c d e f nodes rest, fun others =>
      ofValue_inOrder a b c d e f others rest⟩

theorem mapM_insert {α β : Type} {f : α → Option β} {a : α} {b : β} (reads : f a = some b)
    (front back : List α) :
    (front ++ a :: back).mapM f = ((front ++ back).mapM f).map fun bs =>
      bs.insertIdx front.length b := by
  induction front with
  | nil =>
    rw [List.nil_append, List.nil_append, List.mapM_cons, reads]
    cases back.mapM f <;> rfl
  | cons x rest ih =>
    simp only [List.cons_append, List.mapM_cons, ih]
    cases f x with
    | none => rfl
    | some y => cases (rest ++ back).mapM f <;> simp

theorem mapM_stops {α β : Type} {f : α → Option β} {a : α} (stops : f a = none)
    (front back : List α) : (front ++ a :: back).mapM f = none := by
  rw [List.mapM_append, List.mapM_cons, stops]
  cases front.mapM f <;> rfl

end Document

/-- A node that was read, written again, may lose members that have their default: a document that
lists it is read as it would be without the node, and has the node at that place. A document that
is not written by name needs the type of the node. -/
theorem reads_defaults {n : Node} (readable : ∃ v, Node.ofValue v = some n) :
    (n.toMembers.map Prod.fst).Nodup ∧
      Node.Omitted n.kind n.toWritten.toValue n.toWritten.toValue ∧
      ∀ j doc front back, Node.Omitted n.kind n.toWritten.toValue j →
        Document.Lists (front ++ j :: back) doc →
          ((∃ ms, doc = .object ms) ∨ Node.Typed j →
            Document.ofValue doc =
              (Document.ofValue (Document.relist (front ++ back) doc)).map fun d =>
                { d with nodes := d.nodes.insertIdx front.length n }) ∧
          (¬ ((∃ ms, doc = .object ms) ∨ Node.Typed j) → Document.ofValue doc = none) := by
  refine ⟨n.toMembers_nodup, n.omitted_refl, ?_⟩
  intro j doc front back omitted lists
  obtain ⟨v, hv⟩ := readable
  obtain ⟨o, hdoc, hrelist⟩ := Document.ofValue_relist lists
  have reads : Node.ofValue (Document.withType j) = some n :=
    Node.ofValue_omitted (Node.fits_of_reads n hv) omitted
  rw [hdoc, hrelist]
  constructor
  · intro heeded
    have inserted : (Document.prepared doc (front ++ j :: back)).mapM Node.ofValue =
        ((Document.prepared doc (front ++ back)).mapM Node.ofValue).map fun ns =>
          ns.insertIdx front.length n := by
      cases lists with
      | byName found =>
        simp only [Document.prepared, List.map_append, List.map_cons]
        rw [Document.mapM_insert reads, List.length_map]
      | inOrder a b c d e f rest =>
        have typed : Node.Typed j := by simpa using heeded
        rw [Node.withType_typed typed] at reads
        exact Document.mapM_insert reads front back
    rw [inserted]
    cases o with
    | none => rfl
    | some d => simp [Option.map_map, Function.comp_def]
  · intro unheeded
    rw [not_or] at unheeded
    obtain ⟨inOrder, untyped⟩ := unheeded
    -- No type is put in here, and one node that is not read is enough for the document.
    have unread : (Document.prepared doc (front ++ j :: back)).mapM Node.ofValue = none := by
      cases lists with
      | byName found => exact absurd ⟨_, rfl⟩ inOrder
      | inOrder a b c d e f rest =>
        exact Document.mapM_stops (Node.ofValue_untyped untyped) front back
    rw [unread]
    cases o <;> rfl

def helper : Node :=
  ⟨"help", "", none, [⟨"", "help", [⟨.byPrompt, "", none⟩], false, 0⟩], none, none,
    .conversation ⟨"Help.", [], none, true, []⟩⟩

def briefHelper : Value :=
  .object [("edges", .array [.object [("conditions", .array [.object []]),
    ("target_node_id", .string "help")]]), ("id", .string "help"), ("instruction", .string "Help.")]

theorem briefHelper_omitted : Node.Omitted helper.kind helper.toWritten.toValue briefHelper := by
  have requirement : Requirement.Omitted
      (.object [("condition", .string ""), ("type", .string "prompt")]) (.object []) := by
    refine ⟨_, _, rfl, rfl, ?_, ?_, ?_⟩
    · simp
    · grind [Table.get?_cons, Table.get?_nil, Requirement.defaults]
    · simp
  have conditions : Edge.within "conditions" _ _ := ⟨_, _, rfl, rfl, .cons requirement .nil⟩
  have edge : Edge.Omitted
      (.object [("conditions", .array [.object [("condition", .string ""),
        ("type", .string "prompt")]]), ("id", .string ""), ("is_default", .bool false),
        ("priority", .int 0), ("target_node_id", .string "help")])
      (.object [("conditions", .array [.object []]), ("target_node_id", .string "help")]) := by
    refine ⟨_, _, rfl, rfl, ?_, ?_, ?_⟩
    · grind [Table.get?_cons, Table.get?_nil, Edge.within_same]
    · grind [Table.get?_cons, Table.get?_nil, Edge.defaults]
    · grind [Table.get?_cons, Table.get?_nil]
  have edges : Node.within "edges" _ _ := ⟨_, _, rfl, rfl, .cons edge .nil⟩
  have standard : Node.defaults helper.kind =
      [("id", .string ""), ("name", .string ""), ("edges", .array []),
        ("type", .string "conversation"), ("instruction", .string ""),
        ("extract_variables", .array []), ("auto_respond", .bool true), ("examples", .array [])] :=
    rfl
  refine ⟨[("auto_respond", .bool true), ("edges", .array [.object [("conditions", .array
    [.object [("condition", .string ""), ("type", .string "prompt")]]), ("id", .string ""),
    ("is_default", .bool false), ("priority", .int 0), ("target_node_id", .string "help")]]),
    ("examples", .array []), ("extract_variables", .array []), ("id", .string "help"),
    ("instruction", .string "Help."), ("name", .string ""), ("type", .string "conversation")],
    _, rfl, rfl, ?_, ?_, ?_⟩
  · grind [Table.get?_cons, Table.get?_nil, Node.within_same]
  · grind [Table.get?_cons, Table.get?_nil]
  · grind [Table.get?_cons, Table.get?_nil]

/-- The brief helper is read as the helper where documents are written by name. -/
theorem briefHelper_reads :
    (∃ v, Node.ofValue v = some helper) ∧
      (Document.ofValue (.object [("nodes", .array [briefHelper])])).map Document.nodes =
        some [helper] := by
  have readable : ∃ v, Node.ofValue v = some helper := ⟨helper.toWritten.toValue, rfl⟩
  obtain ⟨-, -, reads⟩ := reads_defaults readable
  obtain ⟨heeded, -⟩ := reads briefHelper (.object [("nodes", .array [briefHelper])]) [] []
    briefHelper_omitted (.byName rfl)
  refine ⟨readable, ?_⟩
  rw [heeded (.inl ⟨_, rfl⟩)]
  rfl

def inOrder (node : Value) : Value :=
  .array [.string "desk", .string "desk", .string "1.0.0", .null, .object [], .string "help",
    .array [node]]

/-- The brief helper is not read where a document is written in the order of the names. -/
theorem briefHelper_unread :
    (∃ v, Node.ofValue v = some helper) ∧
      Node.Omitted helper.kind helper.toWritten.toValue briefHelper ∧
      Document.Lists [briefHelper] (inOrder briefHelper) ∧
      (Document.ofValue (inOrder helper.toWritten.toValue)).map Document.nodes = some [helper] ∧
      Document.ofValue (inOrder briefHelper) = none :=
  ⟨⟨helper.toWritten.toValue, rfl⟩, briefHelper_omitted, .inOrder .., rfl, rfl⟩

end Dialogue.Flow
