import Dialogue.Engine.Config
import Dialogue.Engine.Setting.Line
import Dialogue.Engine.Setting.Path
/-!
Configuration from a file of lines and from the environment, which has the last word.
-/
namespace Dialogue.Config

def lines : List Char → List (List Char)
  | [] => [[]]
  | '\n' :: rest => [] :: lines rest
  | '\r' :: '\n' :: rest => [] :: lines rest
  | c :: rest =>
    match lines rest with
    | [] => [[c]]
    | line :: more => (c :: line) :: more

/-- What a file sets; a mark of byte order at its front does not count. Nothing is set twice,
and nothing below what is set. Of names that differ in case only, the last in the table wins. -/
def settings? (text : String) : Option (Table Setting) := do
  let cs :=
    match text.toList with
    | '\ufeff' :: rest => rest
    | cs => cs
  let set ← Setting.Line.readAll? (lines cs)
  if set.Pairwise fun a b => ¬ a.1.covers b.1 ∧ ¬ b.1.covers a.1 then
    let named := Table.ofPairs (set.map fun (key, value) =>
      (String.ofList key.first, if key.below.isEmpty then value else .group))
    some (Table.ofPairs (named.filterMap fun (name, value) =>
      Setting.Path.place? name.toList value))
  else none

def environmentPath : List Char → List Char
  | '_' :: '_' :: rest => '.' :: environmentPath rest
  | c :: rest => c :: environmentPath rest
  | [] => []

def environment (mark : String) (entries : Table String) : Table Setting :=
  let mark := mark.toLower.toList
  let chosen := entries.filter fun (name, _) => mark.isPrefixOf name.toLower.toList
  Table.ofPairs (chosen.filterMap fun (name, value) =>
    Setting.Path.place? (environmentPath (name.toList.drop mark.length)) (Setting.ofText value))

def ofSettings (set : Table Setting) : Option Config := do
  let field {α : Type} (name : String) (default : α) (read : Setting → Option α) : Option α :=
    (set.get? name).elim (some default) read
  let continuations ← field "max_auto_continuations" standard.continuations (Setting.nat? 32)
  let window ← field "history_window" standard.window (Setting.nat? 64)
  let channels ← field "channels" standard.channels (Setting.nat? 16)
  let language ← field "default_language" standard.language Setting.string?
  some ⟨continuations, window, language, channels⟩

def load (file : Option String) (mark : String) (entries : Table String) : Option Config := do
  let set ← settings? (file.getD "")
  ofSettings (set.overlay (environment mark entries))

end Dialogue.Config
