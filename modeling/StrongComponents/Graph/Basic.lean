import StrongComponents.Graph.Error

/-!
# Directed graphs on numbered vertices

A graph on the vertices `0, …, n - 1` is the array of its neighbour lists. Neighbour order
and repeated edges are part of the graph. A graph built by `ofEdges` and `addEdge` names
existing vertices only; the type itself also holds graphs that do not, and every operation
says what it does with them.
-/

set_option autoImplicit false

namespace StrongComponents

/-- A directed graph: position `v` of `adjacency` lists the out-neighbours of vertex `v` in
order. -/
structure Graph where
  adjacency : Array (Array Nat)
deriving DecidableEq, Inhabited

namespace Graph

/-- The graph with `n` vertices and no edge. -/
def edgeless (n : Nat) : Graph := ⟨Array.replicate n #[]⟩

/-- Number of vertices. -/
def vertexCount (g : Graph) : Nat := g.adjacency.size

/-- Number of edges, repeated ones counted as often as they occur. -/
def edgeCount (g : Graph) : Nat :=
  g.adjacency.foldl (fun count targets => count + targets.size) 0

/-- Whether the graph has no vertex. -/
def isEmpty (g : Graph) : Bool := g.adjacency.isEmpty

/-- All vertices in ascending order. -/
def vertices (g : Graph) : List Nat := List.range g.vertexCount

/-- The out-neighbours of a vertex. -/
def neighbors (g : Graph) (v : Nat) : Except GraphError (Array Nat) := fetch g.adjacency v

/-- Number of out-neighbours of a vertex; zero past the last vertex. -/
def outdegree (g : Graph) (v : Nat) : Nat :=
  match g.adjacency[v]? with
  | some targets => targets.size
  | none => 0

theorem outdegree_eq {g : Graph} {v : Nat} {neighbors : Array Nat}
    (h : g.adjacency[v]? = some neighbors) : g.outdegree v = neighbors.size := by
  simp [outdegree, h]

/-- Whether a vertex is its own neighbour. -/
def hasSelfLoop (g : Graph) (v : Nat) : Except GraphError Bool :=
  return (← g.neighbors v).contains v

/-- Every neighbour list names existing vertices only. -/
def WellFormed (g : Graph) : Prop :=
  ∀ targets ∈ g.adjacency, ∀ v ∈ targets, v < g.vertexCount

instance : DecidablePred WellFormed := fun g =>
  inferInstanceAs (Decidable (∀ targets ∈ g.adjacency, ∀ v ∈ targets, v < g.vertexCount))

/-- Puts `target` at the end of the neighbour list of `source`, which has to exist; `target` is not
looked at. -/
def attach (g : Graph) (source target : Nat) : Except GraphError Graph :=
  if source < g.vertexCount then
    .ok ⟨g.adjacency.modify source (·.push target)⟩
  else
    .error (.indexOutOfBounds g.vertexCount source)

/-- Adds an edge at the end of the neighbour list of `source`. Both ends have to exist, and
`source` is checked first. -/
def addEdge (g : Graph) (source target : Nat) : Except GraphError Graph :=
  if source < g.vertexCount then
    if target < g.vertexCount then
      .ok ⟨g.adjacency.modify source (·.push target)⟩
    else
      .error (.vertexOutOfRange target g.vertexCount)
  else
    .error (.vertexOutOfRange source g.vertexCount)

/-- The graph on `n` vertices with the listed edges, added in order. -/
def ofEdges (n : Nat) (edges : List (Nat × Nat)) : Except GraphError Graph :=
  edges.foldlM (fun g e => g.addEdge e.1 e.2) (edgeless n)

/-- Refuses a number that is no vertex of the graph in place. -/
def requireVertex (v : Nat) : ExceptT GraphError (StateM Graph) Unit := do
  let count := (← get).vertexCount
  if count ≤ v then throw (.vertexOutOfRange v count)

/-- Adds an edge to the graph in place: looks at both ends, then writes. -/
def addEdgeInPlace (source target : Nat) : ExceptT GraphError (StateM Graph) Unit := do
  requireVertex source
  requireVertex target
  modify fun g => ⟨g.adjacency.modify source (·.push target)⟩

/-- What the call that adds an edge in place answers, and the graph that is there after it. -/
def call (g : Graph) (source target : Nat) : Except GraphError Unit × Graph :=
  (addEdgeInPlace source target).run.run g

/-- The graph that is there after a list of calls, however each of them ended. -/
def afterCalls (g : Graph) (calls : List (Nat × Nat)) : Graph :=
  calls.foldl (fun g e => (g.call e.1 e.2).2) g

/-- The edges by ascending source, those of one source in the order of its neighbour list. -/
def edges (g : Graph) : List (Nat × Nat) :=
  g.adjacency.toList.zipIdx.flatMap fun (targets, source) => targets.toList.map (source, ·)

/-- Lexicographic order of edges. -/
def edgeLe (a b : Nat × Nat) : Bool :=
  a.1 < b.1 || (a.1 == b.1 && a.2 ≤ b.2)

/-- The edges sorted by source and then by target, so that neighbour order plays no part. -/
def edgeList (g : Graph) : List (Nat × Nat) := g.edges.mergeSort edgeLe

/-- The graph with every edge turned round. The sources that lead to a vertex are listed in
ascending order. Fails at the first edge whose target does not exist. -/
def reversed (g : Graph) : Except GraphError Graph :=
  g.edges.foldlM (fun r e => r.attach e.2 e.1) (edgeless g.vertexCount)

end Graph

end StrongComponents
