import StrongComponents.Graph.Basic
import Std.Data.HashMap

/-!
# Vertices grouped by leader

A list of leaders, one for each vertex, groups the vertices: two of them are in one component
iff they have the same leader. Components are numbered by their first vertices, and their
members stand in ascending order.
-/

set_option autoImplicit false

namespace StrongComponents

/-- The components of a vertex set: `componentOf[v]` is the number of the component of `v`, and
`components` lists the members of each component. -/
structure Partition where
  componentOf : Array Nat
  components : Array (Array Nat)
deriving DecidableEq

namespace Partition

/-- A partition under construction, with the component number of each leader met so far. -/
structure Builder where
  partition : Partition
  numberOf : Std.HashMap Nat Nat

/-- The builder before the first vertex. -/
def Builder.empty : Builder := ⟨⟨#[], #[]⟩, ∅⟩

/-- Puts the next vertex into the component of its leader, opening that component if it is new. A
component that has a number has to exist. -/
def Builder.add (b : Builder) (leader : Nat) : Except GraphError Builder :=
  match b with
  | ⟨⟨componentOf, components⟩, numberOf⟩ =>
    let v := componentOf.size
    match numberOf[leader]? with
    | some c =>
      if c < components.size then
        .ok ⟨⟨componentOf.push c, components.modify c (·.push v)⟩, numberOf⟩
      else
        .error (.indexOutOfBounds components.size c)
    | none =>
      .ok ⟨⟨componentOf.push components.size, components.push #[v]⟩,
        numberOf.insert leader components.size⟩

/-- Groups the vertices by leader. -/
def ofLeaders (leaders : Array Nat) : Except GraphError Partition :=
  return (← leaders.toList.foldlM Builder.add Builder.empty).partition

end Partition

/-- How many vertices each leader has. -/
def leaderCounts (leaders : Array Nat) : Std.HashMap Nat Nat :=
  leaders.foldl (fun counts l => counts.alter l fun n => some (n.getD 0 + 1)) ∅

/-- The sizes of the components, largest first. -/
def componentSizes (leaders : Array Nat) : List Nat :=
  (leaderCounts leaders).values.mergeSort (· ≥ ·)

/-- A component holds a cycle when it has several vertices or its only vertex is its own
neighbour. -/
def Graph.isCyclic (g : Graph) (component : Array Nat) : Except GraphError Bool :=
  match component.toList with
  | [v] => g.hasSelfLoop v
  | _ => .ok true

/-- For each component whether it holds a cycle. -/
def Graph.cyclicComponents (g : Graph) (components : Array (Array Nat)) :
    Except GraphError (Array Bool) :=
  components.mapM g.isCyclic

end StrongComponents
