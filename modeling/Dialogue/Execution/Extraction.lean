import Dialogue.Json.Numeral
import Dialogue.Json.Reader
import Dialogue.Text
/-! Reading variables off the replies of the generator. -/
namespace Dialogue.Extraction

open Json (Value)

def fence : List Char := "```".toList

def unfenced (reply : String) : String :=
  let cs := Text.trim reply.toList
  if fence.isPrefixOf cs then
    let rest := cs.drop fence.length
    let inner := match Text.breakOn? fence rest with | some (before, _) => before | none => rest
    let tag := "json".toList
    String.ofList (Text.trim (if tag.isPrefixOf inner then inner.drop tag.length else inner))
  else String.ofList cs

/-- The variables of the given names in a reply that is an object, each once. Null is no value. -/
def ofReply (names : List String) (reply : String) : Table Value :=
  match Value.ofText? (unfenced reply) with
  | some (.object ms) =>
    Table.ofPairs (names.filterMap fun name =>
      match Table.get? ms name with
      | none | some .null => none
      | some v => some (name, v))
  | _ => []

def bare (reply : String) : String :=
  let isQuote (c : Char) := c == '"'
  let cs := (Text.trim reply.toList).dropWhile isQuote
  String.ofList (cs.reverse.dropWhile isQuote).reverse

def coerce? (type reply : String) : Option Value :=
  let text := bare reply
  if text = "" ∨ text.toLower = "null" then none
  else if type = "number" then
    match Json.Number.ofText? text.toList with
    | some n => some (.number n)
    | none => some (.string text)
  else if type = "boolean" then some (.bool (["true", "yes", "1"].contains text.toLower))
  else some (.string text)

end Dialogue.Extraction
