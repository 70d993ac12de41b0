import QuadSession.Session

/-!
# What a mutation records

A mutation of an entity removes quads and adds quads, in one graph or in
several.  It is recorded by one change for each graph in which it did anything.
Blank nodes have no names by which single quads about them could be found again,
so a graph that lost a quad with a blank node is recorded by its whole remaining
content.  If nothing remains, there is no content to state, and the removed
quads are recorded instead.
-/

namespace QuadSession.Session

/-- Whether one of the quads lies in the graph and has a blank node as subject or
object. -/
def blankIn (quads : List Quad) (graph : Option Term) : Bool :=
  quads.any fun q => q.involvesBlank && q.graphTerm == graph

/-- The graphs of the quads in order, each once. -/
def graphsOf (quads : List Quad) : List (Option Node) :=
  distinct (quads.map Quad.graph)

/-- The quads that lie in the graph. -/
def inGraph (graph : Option Term) (quads : List Quad) : List Quad :=
  quads.filter fun q => q.graphTerm == graph

/-- How a mutation that removed and added quads edited a graph.  The dataset is
the one to which the mutation has led. -/
def editOf (d : Dataset) (removed added : List Quad) (graph : Option Term) : Edit :=
  let content := if blankIn removed graph then d.inGraph graph else []
  if content.isEmpty then
    .update (Quads.ofList (inGraph graph removed)) (Quads.ofList (inGraph graph added))
  else .overwrite (Quads.ofList content)

/-- The changes by which a mutation of the entity is recorded, in the order of
their graphs. -/
def editsOf (d : Dataset) (e : Entity) (removed added : List Quad) : List Change :=
  (graphsOf (removed ++ added)).map fun graph =>
    .inGraph ⟨e, graph, editOf d removed added (graph.map Node.term)⟩

end QuadSession.Session
