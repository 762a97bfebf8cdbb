import StrongComponents.Graph.Basic
import StrongComponents.Labeled.Label
import Std.Data.HashMap

/-!
# Graphs with labelled vertices

A labelled graph numbers its labels in the order in which they first occur and keeps the edges
between the numbers. It is built label by label, or at once from a description that has to declare
every vertex it mentions. Each write to a neighbour list fails where there is no such list.
-/

set_option autoImplicit false

namespace StrongComponents

/-- A graph whose vertex `i` is called `labels[i]`; `index` gives the number of each label. -/
structure LabeledGraph (V : Type) [BEq V] [Hashable V] where
  graph : Graph
  labels : Array V
  index : Std.HashMap V Nat

/-- What can be added to a labelled graph: a vertex, or an edge together with its ends. -/
inductive Addition (V : Type) where
  | vertex (v : V)
  | edge (source target : V)

namespace LabeledGraph

variable {V : Type} [BEq V] [Hashable V]

/-- The graph without vertices. -/
def empty : LabeledGraph V := ⟨⟨#[]⟩, #[], ∅⟩

/-- Number of vertices. -/
def vertexCount (g : LabeledGraph V) : Nat := g.graph.vertexCount

/-- Number of edges. -/
def edgeCount (g : LabeledGraph V) : Nat := g.graph.edgeCount

/-- The label of a vertex. -/
def label (g : LabeledGraph V) (i : Nat) : Except GraphError V := fetch g.labels i

/-- The vertex with a label. -/
def indexOf? (g : LabeledGraph V) (v : V) : Option Nat := g.index[v]?

/-- The number of a vertex that is known to be there. -/
def number (g : LabeledGraph V) (v : V) : Except GraphError Nat :=
  match g.indexOf? v with
  | some i => .ok i
  | none => .error (.indexOutOfBounds g.vertexCount g.vertexCount)

/-- The labels of the out-neighbours of a vertex, if there is a vertex with that label. -/
def neighborsOf? (g : LabeledGraph V) (v : V) : Except GraphError (Option (List V)) := do
  match g.indexOf? v with
  | none => return none
  | some i => return some (← (← g.graph.neighbors i).toList.mapM g.label)

/-- Adds a vertex without edges unless the label is there already, and gives its number. -/
def insert (g : LabeledGraph V) (v : V) : LabeledGraph V × Nat :=
  match g with
  | ⟨⟨adjacency⟩, labels, index⟩ =>
    match index[v]? with
    | some i => (⟨⟨adjacency⟩, labels, index⟩, i)
    | none =>
      (⟨⟨adjacency.push #[]⟩, labels.push v, index.insert v labels.size⟩, labels.size)

/-- Adds a vertex without edges unless the label is there already. -/
def addVertex (g : LabeledGraph V) (v : V) : LabeledGraph V := (g.insert v).1

/-- Puts vertex `j` at the end of the neighbour list of vertex `i`, which has to exist. -/
def connect (g : LabeledGraph V) (i j : Nat) : Except GraphError (LabeledGraph V) :=
  match g with
  | ⟨⟨adjacency⟩, labels, index⟩ =>
    if i < adjacency.size then .ok ⟨⟨adjacency.modify i (·.push j)⟩, labels, index⟩
    else .error (.indexOutOfBounds adjacency.size i)

/-- Adds an edge, and first its source and its target unless they are there already. -/
def addEdge (g : LabeledGraph V) (source target : V) : Except GraphError (LabeledGraph V) :=
  let (g, i) := g.insert source
  let (g, j) := g.insert target
  g.connect i j

/-- The graph after one addition. -/
def add (g : LabeledGraph V) : Addition V → Except GraphError (LabeledGraph V)
  | .vertex v => .ok (g.addVertex v)
  | .edge source target => g.addEdge source target

/-- The graph after additions in order. -/
def addAll (g : LabeledGraph V) (additions : List (Addition V)) :
    Except GraphError (LabeledGraph V) :=
  additions.foldlM add g

/-- The graph with the listed edges; vertices are numbered as they first occur. -/
def ofEdgeList (edges : List (V × V)) : Except GraphError (LabeledGraph V) :=
  edges.foldlM (fun g e => g.addEdge e.1 e.2) empty

section Description

variable [Label V]

/-- Adds a vertex whose label has to be new. -/
def declare (g : LabeledGraph V) (v : V) : Except GraphError (LabeledGraph V) :=
  if g.index.contains v then .error (.duplicateVertex (Label.quoted v)) else .ok (g.addVertex v)

/-- Adds an edge from vertex `i`, which has the label `source`, to a vertex that has to be there. -/
def link (g : LabeledGraph V) (source : V) (i : Nat) (target : V) :
    Except GraphError (LabeledGraph V) :=
  match g.indexOf? target with
  | some j => g.connect i j
  | none => .error (.danglingEdge (Label.quoted source) (Label.quoted target))

/-- Adds the edges of an entry. Its vertex is looked up before the first of them. -/
def linkEntry (g : LabeledGraph V) (entry : V × List V) : Except GraphError (LabeledGraph V) := do
  let i ← g.number entry.1
  entry.2.foldlM (fun g w => g.link entry.1 i w) g

/-- The graph with the given vertices and their out-neighbours. All vertices are declared before the
first edge is added. -/
def ofAdjacency (entries : List (V × List V)) : Except GraphError (LabeledGraph V) := do
  let declared ← entries.foldlM (fun g entry => g.declare entry.1) empty
  entries.foldlM linkEntry declared

end Description

end LabeledGraph

end StrongComponents
