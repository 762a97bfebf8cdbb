import StrongComponents.Traversal.Basic

/-!
# Traversal by nested calls of limited depth

`Nested.visit` enters a vertex, visits its unexplored neighbours one after the other and then
finishes it. `room` is the number of vertices that may still be entered inside the present
one, so the recursion ends because `room` goes down with every level and the neighbour list
gets shorter inside one level.
-/

set_option autoImplicit false

namespace StrongComponents

namespace Nested

variable {σ : Type}

mutual

/-- Enters `v`, explored or not, and finishes it after everything that it leads to. -/
def visit (g : Graph) (visitor : Visitor σ) (limit room v : Nat) (search : Search σ) : Outcome σ :=
  match search.explored[v]? with
  | none => .error ⟨.indexOutOfBounds search.explored.size v, search⟩
  | some _ =>
    let search := search.discover visitor v
    match g.adjacency[v]? with
    | none => .error ⟨.indexOutOfBounds g.adjacency.size v, search⟩
    | some targets =>
      match scan g visitor limit room targets.toList search with
      | .error interrupted => .error interrupted
      | .ok search => .ok (search.finish visitor v)
termination_by (room, 1, 0)

/-- Visits the unexplored vertices of a neighbour list in order. Where no room is left, the first of
them interrupts the traversal. -/
def scan (g : Graph) (visitor : Visitor σ) (limit room : Nat) (targets : List Nat)
    (search : Search σ) : Outcome σ :=
  match targets with
  | [] => .ok search
  | target :: rest =>
    match search.explored[target]? with
    | none => .error ⟨.indexOutOfBounds search.explored.size target, search⟩
    | some true => scan g visitor limit room rest search
    | some false =>
      match room with
      -- The refused vertex is neither marked nor reported.
      | 0 => .error ⟨.depthExceeded limit target, search⟩
      | inner + 1 =>
        match visit g visitor limit inner target search with
        | .error interrupted => .error interrupted
        | .ok search => scan g visitor limit (inner + 1) rest search
termination_by (room, 0, targets.length)

end

/-- The traversal from `start`, at most `limit` vertices deep. -/
def traverse (g : Graph) (visitor : Visitor σ) (limit start : Nat) (search : Search σ) :
    Outcome σ :=
  match limit with
  -- Not even the start vertex may be entered, and its flag is not looked up.
  | 0 => .error ⟨.depthExceeded 0 start, search⟩
  | room + 1 => visit g visitor limit room start search

end Nested

end StrongComponents
