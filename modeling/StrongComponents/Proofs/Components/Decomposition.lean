import StrongComponents.Components.Decomposition
import StrongComponents.Proofs.Components.Passes
import Mathlib.Data.List.Permutation

/-!
# Components are the classes of mutually reachable vertices

Two vertices get the same leader iff each reaches the other (`Passes.Grown.leader_eq_iff`), whatever
the order of the forward pass and the strategy. Hence the decomposition of a graph is its division
into strongly connected components (`sameComponent_iff_mutuallyReachable`), where reachability is
that of `Graph.Reaches` and owes nothing to the passes.
-/

set_option autoImplicit false

namespace StrongComponents

namespace Passes.Grown

variable {g r : Graph} {order : List Nat} {passes : Passes} {forward backward : Forest}

/-- Before its first root the backward pass stands where nothing is explored. -/
theorem backwardState (h : Grown g order passes r forward backward) :
    g.BackwardState forward [] forward.postorder.reverse (Array.replicate g.vertexCount false) where
  order := rfl
  size_eq := Array.size_replicate
  explored := by simp
  pending := by
    intro x hx
    obtain ⟨hlt, -⟩ := Array.getElem?_eq_some_iff.1 hx
    rw [Array.size_replicate] at hlt
    exact h.postorder_perm.mem_iff.2 (List.mem_range.2 hlt)
  closed := by
    intro x y _ hx
    obtain ⟨hlt, heq⟩ := Array.getElem?_eq_some_iff.1 hx
    simp at heq

/-- The trees of the backward pass are the classes of mutually reachable vertices. -/
theorem leads_classes (h : Grown g order passes r forward backward) :
    (∀ l x, backward.Leads l x → g.MutuallyReachable l x) ∧
      ∀ l x y, backward.Leads l x → g.MutuallyReachable x y → backward.Leads l y := by
  obtain ⟨after, hforward⟩ := h.explores
  obtain ⟨after', hbackward⟩ := h.explores_back
  exact Graph.leads_classes (fun x y => Graph.edge_of_reversed h.wellFormed h.reversed) hforward
    hbackward h.backwardState

/-- Two vertices have the same leader iff they are mutually reachable. -/
theorem leader_eq_iff (h : Grown g order passes r forward backward) {u v : Nat}
    (hu : u < g.vertexCount) (hv : v < g.vertexCount) :
    passes.leader[u]? = passes.leader[v]? ↔ g.MutuallyReachable u v := by
  obtain ⟨hmutual, hwhole⟩ := h.leads_classes
  obtain ⟨l, -, hlu, hleaderu⟩ := h.exists_leader hu
  obtain ⟨m, -, hmv, hleaderv⟩ := h.exists_leader hv
  constructor
  · intro heq
    rw [hleaderu, hleaderv, Option.some.injEq] at heq
    subst heq
    exact (hmutual l u hlu).symm.trans (hmutual l v hmv)
  · intro huv
    rw [hleaderu, h.leader_eq l v hv (hwhole l u v hlu huv)]

end Passes.Grown

namespace Graph

variable {g : Graph} {supply : Stack.Supply} {strategy : Strategy} {d : Decomposition}

/-- A decomposition comes from passes over all vertices in some order. -/
theorem exists_passes_of_decompose
    (h : g.decompose supply strategy = .ok d ∨
      ∃ order, g.decomposeInOrder supply strategy order = .ok d) :
    ∃ order passes, order.Perm (List.range g.vertexCount) ∧
      Passes.runInPlace g strategy order = .ok passes ∧
        Decomposition.ofPasses g passes = .ok d := by
  rcases h with h | ⟨order, h⟩
  · rw [decompose] at h
    obtain ⟨passes, hpasses, h⟩ := bind_eq_ok_iff.1 h
    exact ⟨g.vertices, passes, .refl _, Passes.runInPlace_of_run hpasses, h⟩
  · rw [decomposeInOrder] at h
    obtain ⟨passes, hpasses, h⟩ := bind_eq_ok_iff.1 h
    obtain ⟨horder, hrun⟩ := runInPlace_of_passesInOrder hpasses
    exact ⟨order, passes, horder, hrun, h⟩

theorem leader_of_ofPasses {passes : Passes} (h : Decomposition.ofPasses g passes = .ok d) :
    d.leader = passes.leader := by
  rw [Decomposition.ofPasses] at h
  obtain ⟨partition, -, h⟩ := bind_eq_ok_iff.1 h
  obtain ⟨cyclic, -, h⟩ := bind_eq_ok_iff.1 h
  cases h
  rfl

end Graph

/-- Comparing components is comparing leaders. -/
theorem Decomposition.sameComponent_eq {d : Decomposition} {a b l m : Nat}
    (ha : d.leader[a]? = some l) (hb : d.leader[b]? = some m) :
    d.sameComponent a b = .ok (l == m) := by
  rw [sameComponent, fetch_eq_ok_iff.2 ha, fetch_eq_ok_iff.2 hb]
  rfl

/-- The components of a decomposition are the classes of mutually reachable vertices, for every
graph, strategy and order of the forward pass: every vertex has a leader, which is a vertex, and
comparing the components of two vertices says whether each reaches the other. -/
theorem Graph.sameComponent_iff_mutuallyReachable (g : Graph) (supply : Stack.Supply)
    (strategy : Strategy) (d : Decomposition)
    (h : g.decompose supply strategy = .ok d ∨
      ∃ order, g.decomposeInOrder supply strategy order = .ok d) :
    d.leader.size = g.vertexCount ∧ (∀ l ∈ d.leader, l < g.vertexCount) ∧
      ∀ u < g.vertexCount, ∀ v < g.vertexCount, ∃ same, d.sameComponent u v = .ok same ∧
        (same = true ↔ g.MutuallyReachable u v) := by
  obtain ⟨order, passes, horder, hrun, hd⟩ := exists_passes_of_decompose h
  obtain ⟨r, forward, backward, hgrown⟩ := Passes.exists_grown horder hrun
  rw [leader_of_ofPasses hd]
  refine ⟨hgrown.leader_size, hgrown.leader_lt, ?_⟩
  intro u hu v hv
  obtain ⟨l, -, -, hl⟩ := hgrown.exists_leader hu
  obtain ⟨m, -, -, hm⟩ := hgrown.exists_leader hv
  have hsame : d.sameComponent u v = .ok (l == m) := by
    apply Decomposition.sameComponent_eq
    · rw [leader_of_ofPasses hd, hl]
    · rw [leader_of_ofPasses hd, hm]
  refine ⟨l == m, hsame, ?_⟩
  rw [← hgrown.leader_eq_iff hu hv, hl, hm, Option.some.injEq, beq_iff_eq]

/-- A cycle `0 → 1 → 0` with a doubled edge, an edge from it to a loop at `2`, and a vertex without
edges: `0` and `1` are mutually reachable, `1` and `2` are not. -/
theorem Graph.sameComponent_iff_mutuallyReachable_loops :
    (⟨#[#[1, 1], #[0, 2], #[2], #[]]⟩ : Graph).decomposeInOrder Stack.ofAddressSpace
      (.recursive 3) [2, 0, 3, 1] =
        .ok ⟨#[0, 0, 2, 3], #[3, 2, 1, 4], #[0, 0, 1, 2], #[#[0, 1], #[2], #[3]],
          #[true, true, false]⟩ ∧
      (⟨#[#[1, 1], #[0, 2], #[2], #[]]⟩ : Graph).MutuallyReachable 0 1 ∧
      ¬ (⟨#[#[1, 1], #[0, 2], #[2], #[]]⟩ : Graph).MutuallyReachable 1 2 := by
  have hrun : (⟨#[#[1, 1], #[0, 2], #[2], #[]]⟩ : Graph).decomposeInOrder Stack.ofAddressSpace
    (.recursive 3) [2, 0, 3, 1] =
    .ok ⟨#[0, 0, 2, 3], #[3, 2, 1, 4], #[0, 0, 1, 2], #[#[0, 1], #[2], #[3]],
    #[true, true, false]⟩ := by cbv
  obtain ⟨-, -, hsame⟩ := sameComponent_iff_mutuallyReachable _ _ _ _ (.inr ⟨[2, 0, 3, 1], hrun⟩)
  obtain ⟨same, hequal, hmutual⟩ := hsame 0 (by decide) 1 (by decide)
  obtain ⟨same', hapart, hmutual'⟩ := hsame 1 (by decide) 2 (by decide)
  cases hequal
  cases hapart
  exact ⟨hrun, hmutual.1 rfl, fun h => absurd (hmutual'.2 h) (by decide)⟩

end StrongComponents
