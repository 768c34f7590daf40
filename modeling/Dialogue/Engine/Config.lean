import Dialogue.Json.Record
/-! What a host decides for all flows. -/
namespace Dialogue

open Json (Value Written Decode member)

structure Config where
  /-- The transitions in one turn that need no word of the user. -/
  continuations : Nat
  /-- How many of the last turns the generator is told. -/
  window : Nat
  /-- The language of a flow that names none. -/
  language : String
  channels : Nat
deriving DecidableEq

namespace Config

def standard : Config := ⟨10, 10, "en", 1⟩

def names : List String :=
  ["max_auto_continuations", "history_window", "default_language", "channels"]

def ofMembers (ms : Table Value) : Option Config := do
  let continuations ← member ms "max_auto_continuations" standard.continuations (Decode.nat 32)
  let window ← member ms "history_window" standard.window (Decode.nat 64)
  let language ← member ms "default_language" standard.language Decode.string
  let channels ← member ms "channels" standard.channels (Decode.nat 16)
  some ⟨continuations, window, language, channels⟩

def ofValue (v : Value) : Option Config :=
  Decode.record names v >>= ofMembers

def toWritten (c : Config) : Written :=
  .record [("max_auto_continuations", .nat c.continuations), ("history_window", .nat c.window),
    ("default_language", .string c.language), ("channels", .nat c.channels)]

end Config
end Dialogue
