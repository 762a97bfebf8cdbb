import StrongComponents.Components.Order
import StrongComponents.Traversal.Strategy

/-!
# Two passes over a graph

The forward pass traverses the graph from the vertices of a given order and numbers them
as they finish. The backward pass traverses the reversed graph from the vertices by
decreasing finish time, and notes for each vertex the root that it was discovered from.
That root is the leader of the vertex.
-/

set_option autoImplicit false

namespace StrongComponents

/-- Traverses from each listed vertex that is still unexplored; the visitor may depend on the
root. -/
def Graph.sweep {σ : Type} (g : Graph) (strategy : Strategy) (visitor : Nat → Visitor σ) :
    List Nat → Search σ → Outcome σ
  | [], search => .ok search
  | root :: rest, search =>
    match search.explored[root]? with
    | none => .error ⟨.indexOutOfBounds search.explored.size root, search⟩
    | some true => g.sweep strategy visitor rest search
    | some false =>
      match g.traverseInPlace strategy (visitor root) root search with
      | .error interrupted => .error interrupted
      | .ok search => g.sweep strategy visitor rest search

/-- Finish times given so far. -/
structure FinishClock where
  now : Nat
  times : Array Nat

/-- Gives the finished vertices the times `1, 2, …`. -/
def FinishClock.visitor : Visitor FinishClock where
  finish v clock :=
    match clock with
    | ⟨now, times⟩ => ⟨now + 1, times.setIfInBounds v (now + 1)⟩

/-- Notes `root` as the leader of the discovered vertices. -/
def leaderVisitor (root : Nat) : Visitor (Array Nat) where
  discover v leaders := leaders.setIfInBounds v root

/-- Stands in the place of the leader of a vertex that has none: the largest count of a 64-bit
word. -/
def noLeader : Nat := Stack.largestWord

/-- What both passes find: the finish time and the leader of each vertex, and the vertices
by decreasing finish time. -/
structure Passes where
  finishTime : Array Nat
  backwardOrder : Array Nat
  leader : Array Nat
deriving DecidableEq

namespace Passes

/-- Puts vertex `v` with finish time `t` where it stands by decreasing time. A time that is none of
`1, …, n` has no place. -/
def place (order : Array Nat) (v t : Nat) : Except GraphError (Array Nat) :=
  if 0 < t ∧ t ≤ order.size then .ok (order.setIfInBounds (order.size - t) v)
  else .error (.indexOutOfBounds order.size (order.size - t))

/-- The vertices by decreasing finish time, where the times are `1, …, n`. -/
def byDecreasingFinish (times : Array Nat) : Except GraphError (Array Nat) :=
  times.toList.zipIdx.foldlM (fun order (t, v) => place order v t) (Array.replicate times.size 0)

/-- The sweep of the forward pass in the given order. -/
def forwardSweep (g : Graph) (strategy : Strategy) (order : List Nat) : Outcome FinishClock :=
  let n := g.vertexCount
  -- Time `0` is no finish time: the clock gives out `1` first.
  g.sweep strategy (fun _ => FinishClock.visitor) order (Search.fresh n ⟨0, Array.replicate n 0⟩)

/-- The finish times of the forward pass. -/
def forward (g : Graph) (strategy : Strategy) (order : List Nat) : Except GraphError (Array Nat) :=
  match forwardSweep g strategy order with
  | .ok search => .ok search.record.times
  | .error interrupted => .error interrupted.cause

/-- The sweep of the backward pass over the reversed graph `r`. -/
def backwardSweep (r : Graph) (strategy : Strategy) (order : List Nat) : Outcome (Array Nat) :=
  let n := r.vertexCount
  r.sweep strategy leaderVisitor order (Search.fresh n (Array.replicate n noLeader))

/-- The leaders of the backward pass. -/
def backward (r : Graph) (strategy : Strategy) (order : List Nat) : Except GraphError (Array Nat) :=
  match backwardSweep r strategy order with
  | .ok search => .ok search.record
  | .error interrupted => .error interrupted.cause

/-- Both passes on a stack that is already there. -/
def runInPlace (g : Graph) (strategy : Strategy) (order : List Nat) : Except GraphError Passes := do
  let finishTime ← forward g strategy order
  let backwardOrder ← byDecreasingFinish finishTime
  let leader ← backward (← g.reversed) strategy backwardOrder.toList
  return { finishTime, backwardOrder, leader }

/-- Both passes, after reserving the stack that the strategy needs. -/
def run (g : Graph) (supply : Stack.Supply) (strategy : Strategy) (order : List Nat) :
    Except GraphError Passes := do
  strategy.reserve supply
  runInPlace g strategy order

end Passes

namespace Graph

/-- Both passes, the forward one in the order of the vertex numbers. -/
def passes (g : Graph) (supply : Stack.Supply) (strategy : Strategy) : Except GraphError Passes :=
  Passes.run g supply strategy g.vertices

/-- Both passes, the forward one in a given order of all vertices. -/
def passesInOrder (g : Graph) (supply : Stack.Supply) (strategy : Strategy) (order : List Nat) :
    Except GraphError Passes := do
  checkOrder g.vertexCount order
  Passes.run g supply strategy order

end Graph

end StrongComponents
