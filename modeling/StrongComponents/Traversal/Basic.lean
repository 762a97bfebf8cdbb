import StrongComponents.Graph.Basic

/-!
# Depth-first traversal: states, visitors and strategies

A traversal marks vertices as explored and tells a visitor when it discovers a vertex and when it
has finished one. It either ends or is interrupted, and an interrupted traversal still has the flags
and the visitor's record as far as it got. The two ways to carry a traversal out are in
`Traversal.Worklist` and `Traversal.Nested`.
-/

set_option autoImplicit false

namespace StrongComponents

/-- What a traversal reports about a vertex. -/
inductive Visit where
  | discover (vertex : Nat)
  | finish (vertex : Nat)
deriving DecidableEq

/-- A record `σ` kept during a traversal, and how discovering and finishing a vertex change it. -/
structure Visitor (σ : Type) where
  discover : Nat → σ → σ := fun _ record => record
  finish : Nat → σ → σ := fun _ record => record

namespace Visitor

/-- Keeps all reports in order. -/
def log : Visitor (Array Visit) where
  discover v visits := visits.push (.discover v)
  finish v visits := visits.push (.finish v)

/-- Keeps the discovered vertices in order. -/
def discovered : Visitor (Array Nat) where
  discover v found := found.push v

end Visitor

/-- State of a traversal: which vertices are explored, and the visitor's record. -/
structure Search (σ : Type) where
  explored : Array Bool
  record : σ

namespace Search

variable {σ : Type}

/-- Marks a vertex as explored and reports its discovery. -/
def discover (visitor : Visitor σ) (v : Nat) : Search σ → Search σ
  | ⟨explored, record⟩ => ⟨explored.setIfInBounds v true, visitor.discover v record⟩

/-- Reports that a vertex is finished. -/
def finish (visitor : Visitor σ) (v : Nat) : Search σ → Search σ
  | ⟨explored, record⟩ => ⟨explored, visitor.finish v record⟩

/-- Nothing explored yet among `n` vertices. -/
def fresh (n : Nat) (record : σ) : Search σ := ⟨Array.replicate n false, record⟩

end Search

/-- A traversal that could not go on, with the state it had reached. -/
structure Interrupted (σ : Type) where
  cause : GraphError
  search : Search σ

/-- How a traversal ends. -/
abbrev Outcome (σ : Type) := Except (Interrupted σ) (Search σ)

/-- How a traversal keeps track of the vertices it has entered and not yet finished. -/
inductive Strategy where
  /-- A list of entered vertices that grows as needed. -/
  | iterative
  /-- Nested calls, at most `maxDepth` vertices deep. -/
  | recursive (maxDepth : Nat)
deriving DecidableEq

namespace Strategy

/-- The depth limit that applies when none is given. -/
def defaultMaxDepth : Nat := 10000

instance : Inhabited Strategy := ⟨iterative⟩

end Strategy

end StrongComponents
