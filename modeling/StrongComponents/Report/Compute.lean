import StrongComponents.Components.Decomposition
import StrongComponents.Failure
import StrongComponents.Report.Event

/-!
# Computing a report

A computation decomposes the graph and then describes the components by decreasing size,
those of one size in the order of their numbers. It emits events on the way, and those
emitted before a failure stay.
-/

set_option autoImplicit false

namespace StrongComponents

/-- A way to decompose a graph. -/
abbrev Detector := Graph → Except GraphError Decomposition

/-- The events emitted so far and what became of the computation. -/
structure Computation (α : Type) where
  events : List Event
  result : Except GraphError α

namespace Computation

/-- What is known about the components described so far. -/
structure Listing where
  sizes : List Nat
  components : List (List String)

/-- The numbers of the components by decreasing size; the order is stable. -/
def ranking (d : Decomposition) : List Nat :=
  let size (c : Nat) : Nat := ((d.components[c]?).map Array.size).getD 0
  (List.range d.components.size).mergeSort fun a b => size b ≤ size a

variable {V : Type} [BEq V] [Hashable V] [Label V]

/-- The text of the label of a vertex. -/
def labelText (g : LabeledGraph V) (v : Nat) : Except GraphError String :=
  return Label.text (← g.label v)

/-- The event for a component. Its leader is that of its first member. -/
def announce (g : LabeledGraph V) (d : Decomposition) (c : Nat) (members : Array Nat) :
    Except GraphError Event := do
  let first ← fetch members 0
  let leader ← labelText g (← fetch d.leader first)
  return .componentFound leader members.size (← fetch d.cyclic c)

/-- Describes components one after the other. A component is announced before its members are
listed. -/
def describe (g : LabeledGraph V) (d : Decomposition) : List Nat → Computation Listing
  | [] => ⟨[], .ok ⟨[], []⟩⟩
  | c :: rest =>
    match fetch d.components c with
    | .error e => ⟨[], .error e⟩
    | .ok members =>
      match announce g d c members with
      | .error e => ⟨[], .error e⟩
      | .ok event =>
        match members.toList.mapM (labelText g) with
        | .error e => ⟨[event], .error e⟩
        | .ok texts =>
          let others := describe g d rest
          ⟨event :: others.events,
            others.result.map fun l => ⟨members.size :: l.sizes, texts :: l.components⟩⟩

/-- The leaders of the vertices by the texts of their labels, where the first leader is that of
vertex `v`. -/
def leaders (g : LabeledGraph V) (v : Nat) :
    List Nat → Except GraphError (List (String × String))
  | [] => .ok []
  | l :: rest => do
    let vertex ← labelText g v
    let leader ← labelText g l
    return (vertex, leader) :: (← leaders g (v + 1) rest)

/-- The report on a decomposed graph, from what is known about its components and leaders. -/
def assemble (g : LabeledGraph V) (d : Decomposition) (listing : Listing)
    (leaders : List (String × String)) : Report where
  stats :=
    { vertices := g.vertexCount
      edges := g.edgeCount
      components := listing.sizes.length
      singletonComponents := listing.sizes.count 1
      cyclicComponents := d.cyclicCount
      largestComponent := listing.sizes.head?.getD 0 }
  sizes := listing.sizes
  components := listing.components
  leaders := Std.TreeMap.ofList leaders compare

/-- The report on a decomposed graph. -/
def aggregate (g : LabeledGraph V) (d : Decomposition) : Computation Report :=
  let started := .phaseStarted Phase.aggregation.name
  let described := describe g d (ranking d)
  let result : Except GraphError Report := do
    let listing ← described.result
    return assemble g d listing (← leaders g 0 d.leader.toList)
  let ending :=
    match result with
    | .ok report => [.phaseFinished Phase.aggregation.name, .finished report.stats]
    | .error _ => []
  ⟨started :: described.events ++ ending, result⟩

/-- The event that tells what the decomposition found. -/
def computedEvent (g : LabeledGraph V) (d : Decomposition) : Event :=
  .componentsComputed g.vertexCount g.edgeCount d.count d.cyclicCount

end Computation

/-- The report on a labelled graph and the events on the way. A failed decomposition is reported as
such; a look-up past the end of a list is not. -/
def LabeledGraph.compute {V : Type} [BEq V] [Hashable V] [Label V] (g : LabeledGraph V)
    (detector : Detector) : List Event × Except Failure Report :=
  let started := [.graphLoaded g.vertexCount g.edgeCount, .phaseStarted Phase.components.name]
  match detector g.graph with
  | .error (.indexOutOfBounds size index) =>
    (started, .error (.ofCause (.graph (.indexOutOfBounds size index))))
  | .error e => (started, during .computing (failing .graph (.error e)))
  | .ok d =>
    let aggregated := Computation.aggregate g d
    (started ++ [Computation.computedEvent g d, .phaseFinished Phase.components.name] ++
        aggregated.events,
      failing .graph aggregated.result)

/-- A graph of ten vertices to try the program with. -/
def sampleAdjacency : List (Int × List Int) :=
  [(1, []), (2, []), (3, [4]), (4, [7]), (5, [3, 7]), (6, [3]), (7, [9]), (8, []), (9, [5, 6]),
   (10, [9])]

/-- The sample as a labelled graph. -/
def sampleGraph : Except GraphError (LabeledGraph Int) := LabeledGraph.ofAdjacency sampleAdjacency

end StrongComponents
