import Dialogue.Json.Value
import Dialogue.Number.Literal
/-! Numbers of the data format in text that people write. -/
namespace Dialogue.Json

def Number.ofText? (cs : List Char) : Option Number :=
  if cs.contains '.' then (Literal.double? cs).map .double
  else ((Literal.int? cs).filter Literal.isWord).map .int

end Dialogue.Json
