import Dialogue.Flow.Document
/-!
The graph of a flow. Nodes are found by their ids in a table, and the order in which they were
written is kept beside it, so that the document can be written again.
-/
namespace Dialogue.Flow

def Document.strays (d : Document) (ids : List String) : List Problem :=
  (if d.start = "" then [.missingStart]
    else if d.start ∈ ids then [] else [.unknownStart d.start]) ++
  (d.nodes.flatMap fun n =>
    (n.edges.filter fun e => e.target ∉ ids).map fun e => .danglingEdge n.id e.id e.target) ++
  (d.settings.fallback.toList.filter fun id => id ∉ ids).map .unknownFallback

structure Graph where
  /-- The document without its nodes. -/
  outline : Document
  index : Table Node
  order : List String

namespace Graph

def ofDocument (d : Document) : Graph where
  outline := { d with nodes := [] }
  index := Table.ofPairs (d.nodes.map fun n => (n.id, n))
  order := d.ids

def node? (g : Graph) (id : String) : Option Node := g.index.get? id

def nodes (g : Graph) : List Node := g.order.filterMap g.node?

def toDocument (g : Graph) : Document := { g.outline with nodes := g.nodes }

/-- What is wrong with the graph; that ids were repeated can no longer be seen. -/
def problems (g : Graph) : List Problem :=
  g.toDocument.strays (g.index.map Prod.fst)

def warnings (g : Graph) : List Problem := g.toDocument.warnings

end Graph

def graph (f : Flow) : Graph := .ofDocument f.document

end Dialogue.Flow
