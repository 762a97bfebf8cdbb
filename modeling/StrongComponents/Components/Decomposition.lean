import StrongComponents.Components.Partition
import StrongComponents.Components.Passes

/-!
# The strongly connected components of a graph

`Graph.decompose` runs both passes and groups the vertices by their leaders.
-/

set_option autoImplicit false

namespace StrongComponents

/-- A graph divided into components. Vertices with equal leaders are in one component; `cyclic[c]`
says whether component `c` holds a cycle. -/
structure Decomposition where
  leader : Array Nat
  finishTime : Array Nat
  componentOf : Array Nat
  components : Array (Array Nat)
  cyclic : Array Bool
deriving DecidableEq

namespace Decomposition

/-- Number of components. -/
def count (d : Decomposition) : Nat := d.components.size

/-- Number of components that hold a cycle. -/
def cyclicCount (d : Decomposition) : Nat := d.cyclic.count true

/-- Whether two vertices are in one component. -/
def sameComponent (d : Decomposition) (a b : Nat) : Except GraphError Bool := do
  let leaderOfA ← fetch d.leader a
  let leaderOfB ← fetch d.leader b
  return leaderOfA == leaderOfB

/-- Component sizes, largest first. -/
def sizesDescending (d : Decomposition) : List Nat := componentSizes d.leader

/-- Groups the vertices of `g` by the leaders that the passes found. -/
def ofPasses (g : Graph) (passes : Passes) : Except GraphError Decomposition := do
  let partition ← Partition.ofLeaders passes.leader
  let cyclic ← g.cyclicComponents partition.components
  return {
    leader := passes.leader
    finishTime := passes.finishTime
    componentOf := partition.componentOf
    components := partition.components
    cyclic }

end Decomposition

namespace Graph

/-- The strongly connected components, with a forward pass in the order of the vertex numbers. -/
def decompose (g : Graph) (supply : Stack.Supply) (strategy : Strategy) :
    Except GraphError Decomposition := do
  Decomposition.ofPasses g (← g.passes supply strategy)

/-- The strongly connected components, with a forward pass in a given order of all vertices. -/
def decomposeInOrder (g : Graph) (supply : Stack.Supply) (strategy : Strategy) (order : List Nat) :
    Except GraphError Decomposition := do
  Decomposition.ofPasses g (← g.passesInOrder supply strategy order)

end Graph

end StrongComponents
