import StrongComponents.Graph.Basic

/-!
# Reachability

The edge relation of a graph, the walks along it, and the equivalence whose classes are the strongly
connected components: two vertices are mutually reachable if each has a walk to the other
(`MutuallyReachable.trans`, `MutuallyReachable.symm`).
-/

set_option autoImplicit false

namespace StrongComponents.Graph

/-- There is an edge from `u` to `v`. -/
def Edge (g : Graph) (u v : Nat) : Prop :=
  ∃ targets, g.adjacency[u]? = some targets ∧ v ∈ targets

/-- There is a walk from one vertex to another, possibly of no edge. -/
inductive Reaches (g : Graph) (u : Nat) : Nat → Prop where
  | refl : Reaches g u u
  | tail {v w : Nat} : Reaches g u v → g.Edge v w → Reaches g u w

/-- Each of two vertices has a walk to the other. -/
def MutuallyReachable (g : Graph) (u v : Nat) : Prop := g.Reaches u v ∧ g.Reaches v u

/-- A vertex lies on a closed walk of at least one edge. -/
def OnCycle (g : Graph) (v : Nat) : Prop := ∃ w, g.Edge v w ∧ g.Reaches w v

variable {g : Graph} {u v w : Nat}

/-- An edge starts at a vertex of the graph. -/
theorem Edge.source_lt (h : g.Edge u v) : u < g.vertexCount := by
  obtain ⟨targets, hu, -⟩ := h
  exact (Array.getElem?_eq_some_iff.1 hu).1

/-- An edge of a well-formed graph ends at a vertex of the graph. -/
theorem Edge.target_lt (hg : g.WellFormed) (h : g.Edge u v) : v < g.vertexCount := by
  obtain ⟨targets, hu, hv⟩ := h
  exact hg targets (Array.mem_of_getElem? hu) v hv

/-- An edge is a walk. -/
theorem Edge.reaches (h : g.Edge u v) : g.Reaches u v := .tail .refl h

/-- Walks can be joined. -/
theorem Reaches.trans (huv : g.Reaches u v) (hvw : g.Reaches v w) : g.Reaches u w := by
  induction hvw with
  | refl => exact huv
  | tail _ h ih => exact .tail ih h

/-- Every vertex is mutually reachable with itself. -/
theorem MutuallyReachable.refl (g : Graph) (v : Nat) : g.MutuallyReachable v v := ⟨.refl, .refl⟩

/-- Mutual reachability goes both ways. -/
theorem MutuallyReachable.symm (h : g.MutuallyReachable u v) : g.MutuallyReachable v u := ⟨h.2, h.1⟩

/-- Mutual reachability can be chained. -/
theorem MutuallyReachable.trans (huv : g.MutuallyReachable u v) (hvw : g.MutuallyReachable v w) :
    g.MutuallyReachable u w :=
  ⟨huv.1.trans hvw.1, hvw.2.trans huv.2⟩

end StrongComponents.Graph
