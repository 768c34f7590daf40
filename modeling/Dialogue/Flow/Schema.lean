import Dialogue.Flow.Document
import Dialogue.Json.Reader
import Dialogue.Json.Record
import Dialogue.Json.Text
/-!
The records of a flow document: how they are written, and how they are read with a default for
every member that is left out.
-/
namespace Dialogue.Flow

open Json (Value Written Decode member optionalMember)

def Judged.name : Judged → String
  | .byEquation => "equation"
  | .byPrompt => "prompt"

def Judged.ofName? (name : String) : Option Judged :=
  if name = "equation" then some .byEquation
  else if name = "prompt" then some .byPrompt
  else none

/-- The name of the judge, alone or as the only member of an object, with nothing in it. -/
def Judged.ofValue : Decode Judged
  | .string name => ofName? name
  | .object [(name, .null)] => ofName? name
  | _ => none

namespace Requirement

def toWritten (r : Requirement) : Written :=
  .record ([("type", .string r.judged.name), ("condition", .string r.text)] ++
    Written.optional "description" .string r.description)

def ofValue (v : Value) : Option Requirement := do
  let ms ← Decode.record ["type", "condition", "description"] v
  let judged ← member ms "type" .byPrompt Judged.ofValue
  let text ← member ms "condition" "" Decode.string
  let description ← optionalMember ms "description" Decode.string
  some ⟨judged, text, description⟩

end Requirement

namespace Edge

def toWritten (e : Edge) : Written :=
  .record [("id", .string e.id), ("target_node_id", .string e.target),
    ("conditions", .list (e.requirements.map Requirement.toWritten)),
    ("is_default", .bool e.isDefault), ("priority", .int e.priority)]

def ofValue (v : Value) : Option Edge := do
  let ms ← Decode.record ["id", "target_node_id", "conditions", "is_default", "priority"] v
  let id ← member ms "id" "" Decode.string
  let target ← member ms "target_node_id" "" Decode.string
  let requirements ← member ms "conditions" [] (Decode.list Requirement.ofValue)
  let isDefault ← member ms "is_default" false Decode.bool
  let priority ← member ms "priority" 0 (Decode.int (-twoTo 31) (twoTo 31 - 1))
  some ⟨id, target, requirements, isDefault, priority⟩

end Edge

namespace Example

def toWritten (e : Example) : Written :=
  .record [("user", .string e.user), ("agent", .string e.agent)]

def ofValue (v : Value) : Option Example := do
  let ms ← Decode.record ["user", "agent"] v
  let user ← member ms "user" "" Decode.string
  let agent ← member ms "agent" "" Decode.string
  some ⟨user, agent⟩

end Example

namespace Wanted

def toWritten (w : Wanted) : Written :=
  .record [("name", .string w.name), ("description", .string w.description),
    ("type", .string w.type)]

def ofValue (v : Value) : Option Wanted := do
  let ms ← Decode.record ["name", "description", "type"] v
  let name ← member ms "name" "" Decode.string
  let description ← member ms "description" "" Decode.string
  let type ← member ms "type" "string" Decode.string
  some ⟨name, description, type⟩

end Wanted

namespace NodeKind

def toMembers : NodeKind → List (String × Written)
  | conversation c =>
    [("instruction", .string c.instruction),
      ("extract_variables", .list (c.extracted.map .string))] ++
    Written.optional "response_template" .string c.template ++
    [("auto_respond", .bool c.speaksFirst), ("examples", .list (c.examples.map Example.toWritten))]
  | call c =>
    [("function_name", .string c.function), ("parameters", .table c.parameters)] ++
    Written.optional "result_variable" .string c.result ++
    Written.optional "pending_message" .string c.pendingMessage ++
    Written.optional "success_message" .string c.successMessage ++
    Written.optional "failure_message" .string c.failureMessage
  | split => []
  | ending e => [("message", .string e.message), ("end_reason", .string e.reason)]
  | transfer t =>
    [("message", .string t.message)] ++
    Written.optional "destination" .string t.destination ++
    [("transfer_reason", .string t.reason)]
  | extraction x =>
    [("variables", .list (x.wanted.map Wanted.toWritten))] ++
    Written.optional "extraction_prompt" .string x.prompt

def ofTag : Decode NodeKind
  | .string name => standard.find? fun kind => kind.name = name
  | .number (.int i) => if 0 ≤ i then standard[i.toNat]? else none
  | _ => none

def ofMembers (ms : Table Value) : Option NodeKind := do
  let tag ← ms.get? "type"
  match ← ofTag tag with
  | conversation c => do
    let instruction ← member ms "instruction" c.instruction Decode.string
    let extracted ← member ms "extract_variables" c.extracted (Decode.list Decode.string)
    let template ← optionalMember ms "response_template" Decode.string
    let speaksFirst ← member ms "auto_respond" c.speaksFirst Decode.bool
    let examples ← member ms "examples" c.examples (Decode.list Example.ofValue)
    some (conversation ⟨instruction, extracted, template, speaksFirst, examples⟩)
  | call c => do
    let function ← member ms "function_name" c.function Decode.string
    let parameters ← member ms "parameters" c.parameters Decode.object
    let result ← optionalMember ms "result_variable" Decode.string
    let pendingMessage ← optionalMember ms "pending_message" Decode.string
    let successMessage ← optionalMember ms "success_message" Decode.string
    let failureMessage ← optionalMember ms "failure_message" Decode.string
    some (call ⟨function, parameters, result, pendingMessage, successMessage, failureMessage⟩)
  | split => some split
  | ending e => do
    let message ← member ms "message" e.message Decode.string
    let reason ← member ms "end_reason" e.reason Decode.string
    some (ending ⟨message, reason⟩)
  | transfer t => do
    let message ← member ms "message" t.message Decode.string
    let destination ← optionalMember ms "destination" Decode.string
    let reason ← member ms "transfer_reason" t.reason Decode.string
    some (transfer ⟨message, destination, reason⟩)
  | extraction x => do
    let wanted ← member ms "variables" x.wanted (Decode.list Wanted.ofValue)
    let prompt ← optionalMember ms "extraction_prompt" Decode.string
    some (extraction ⟨wanted, prompt⟩)

end NodeKind

namespace Node

def toMembers (n : Node) : List (String × Written) :=
  [("id", .string n.id), ("name", .string n.name)] ++
  Written.optional "description" .string n.description ++
  [("edges", .list (n.edges.map Edge.toWritten))] ++
  Written.optional "llm_model" .string n.model ++
  Written.optional "temperature" .double n.temperature ++
  [("type", .string n.kind.name)] ++ n.kind.toMembers

def toWritten (n : Node) : Written := .record n.toMembers

def ofValue (v : Value) : Option Node := do
  let ms ← Decode.object v
  let id ← member ms "id" "" Decode.string
  let name ← member ms "name" "" Decode.string
  let description ← optionalMember ms "description" Decode.string
  let edges ← member ms "edges" [] (Decode.list Edge.ofValue)
  let model ← optionalMember ms "llm_model" Decode.string
  let temperature ← optionalMember ms "temperature" Decode.double
  let kind ← NodeKind.ofMembers ms
  some ⟨id, name, description, edges, model, temperature, kind⟩

end Node

namespace Settings

def toMembers (s : Settings) : List (String × Written) :=
  [("system_prompt", .string s.systemPrompt), ("llm_model", .string s.model),
    ("temperature", .double s.temperature), ("max_tokens", .nat s.maxTokens),
    ("voice", .string s.voice), ("language", .string s.language),
    ("max_retries", .nat s.maxRetries)] ++
  Written.optional "fallback_node_id" .string s.fallback ++
  [("vad_enabled", .bool s.listens), ("allow_interruptions", .bool s.interruptible)] ++
  s.speech.toMembers ++
  [("initial_variables", .table s.initial), ("error_message", .string s.errorMessage),
    ("handoff_message", .string s.handoffMessage)]

def toWritten (s : Settings) : Written := .record s.toMembers

def ofValue (v : Value) : Option Settings := do
  let ms ← Decode.object v
  let systemPrompt ← member ms "system_prompt" standard.systemPrompt Decode.string
  let model ← member ms "llm_model" standard.model Decode.string
  let temperature ← member ms "temperature" standard.temperature Decode.double
  let maxTokens ← member ms "max_tokens" standard.maxTokens (Decode.nat 32)
  let voice ← member ms "voice" standard.voice Decode.string
  let language ← member ms "language" standard.language Decode.string
  let maxRetries ← member ms "max_retries" standard.maxRetries (Decode.nat 32)
  let fallback ← optionalMember ms "fallback_node_id" Decode.string
  let listens ← member ms "vad_enabled" standard.listens Decode.bool
  let interruptible ← member ms "allow_interruptions" standard.interruptible Decode.bool
  let speech ← Speech.Settings.ofMembers ms
  let initial ← member ms "initial_variables" standard.initial Decode.object
  let errorMessage ← member ms "error_message" standard.errorMessage Decode.string
  let handoffMessage ← member ms "handoff_message" standard.handoffMessage Decode.string
  some ⟨systemPrompt, model, temperature, maxTokens, voice, language, maxRetries, fallback, listens,
    interruptible, speech, initial, errorMessage, handoffMessage⟩

end Settings

namespace Document

def names : List String :=
  ["id", "name", "version", "description", "global_settings", "start_node_id", "nodes",
    "created_at", "updated_at"]

def toMembers (d : Document) : List (String × Written) :=
  [("id", .string d.id), ("name", .string d.name), ("version", .string d.version)] ++
  Written.optional "description" .string d.description ++
  [("global_settings", d.settings.toWritten), ("start_node_id", .string d.start),
    ("nodes", .list (d.nodes.map Node.toWritten))] ++
  Written.optional "created_at" .string d.createdAt ++
  Written.optional "updated_at" .string d.updatedAt

def toWritten (d : Document) : Written := .record d.toMembers

def withType : Value → Value
  | .object ms =>
    if Table.contains ms "type" then .object ms
    else .object (Table.insert ms "type" (.string "conversation"))
  | v => v

/-- The document with a type for each of its nodes, if it is written by name. -/
def withTypes : Value → Value
  | .object ms =>
    match Table.get? ms "nodes" with
    | some (.array nodes) => .object (Table.insert ms "nodes" (.array (nodes.map withType)))
    | _ => .object ms
  | v => v

def ofValue (v : Value) : Option Document := do
  let ms ← Decode.record names (withTypes v)
  let id ← member ms "id" "" Decode.string
  let name ← member ms "name" "" Decode.string
  let version ← member ms "version" "1.0.0" Decode.string
  let description ← optionalMember ms "description" Decode.string
  let settings ← member ms "global_settings" .standard Settings.ofValue
  let start ← member ms "start_node_id" "" Decode.string
  let nodes ← member ms "nodes" [] (Decode.list Node.ofValue)
  let createdAt ← optionalMember ms "created_at" Decode.string
  let updatedAt ← optionalMember ms "updated_at" Decode.string
  some ⟨id, name, version, description, settings, start, nodes, createdAt, updatedAt⟩

def ofText (text : String) : Option Document :=
  Value.ofText? text >>= ofValue

def toValue (d : Document) : Value := d.toWritten.toValue

/-- Two documents are the same when they write the same value. -/
def same (d e : Document) : Bool := d.toValue.equal e.toValue

def toText (d : Document) : String := d.toWritten.text .indented

end Document

inductive LoadError where
  | malformed
  | invalid (problems : List Problem)

def invalidMessage (problems : List Problem) : String :=
  "invalid flow definition: " ++ String.intercalate "; " (problems.map Problem.message)

def load : Option Document → Except LoadError Flow
  | none => .error .malformed
  | some d => (ofDocument d).mapError .invalid

def ofValue (v : Value) : Except LoadError Flow := load (Document.ofValue v)

def ofText (text : String) : Except LoadError Flow := load (Document.ofText text)

end Dialogue.Flow
