import StrongComponents.Traversal.Nested
import StrongComponents.Traversal.Stack
import StrongComponents.Traversal.Worklist

/-!
# Traversal by either strategy, and the vertices a traversal reaches
-/

set_option autoImplicit false

namespace StrongComponents

namespace Graph

variable {σ : Type}

/-- The traversal from `start` on a stack that is already there. -/
def traverseInPlace (g : Graph) (strategy : Strategy) (visitor : Visitor σ) (start : Nat)
    (search : Search σ) : Outcome σ :=
  match strategy with
  | .iterative => Worklist.traverse g visitor start search
  | .recursive maxDepth => Nested.traverse g visitor maxDepth start search

/-- The traversal from `start`, after reserving the stack that the strategy needs. -/
def traverse (g : Graph) (supply : Stack.Supply) (strategy : Strategy) (visitor : Visitor σ)
    (start : Nat) (search : Search σ) : Outcome σ :=
  match strategy.reserve supply with
  | .error cause => .error ⟨cause, search⟩
  | .ok () => g.traverseInPlace strategy visitor start search

/-- The vertices that `start` leads to, itself included, in the order of their discovery. -/
def reachableFrom (g : Graph) (start : Nat) : Except GraphError (Array Nat) :=
  if start < g.vertexCount then
    match Worklist.traverse g Visitor.discovered start (Search.fresh g.vertexCount #[]) with
    | .ok search => .ok search.record
    | .error interrupted => .error interrupted.cause
  else
    .error (.vertexOutOfRange start g.vertexCount)

end Graph

end StrongComponents
