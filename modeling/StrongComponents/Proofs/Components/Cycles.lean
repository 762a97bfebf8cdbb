import StrongComponents.Proofs.Components.Classes
import StrongComponents.Proofs.Components.Condensation

/-!
# Cycles: what finish times and marks say of them

An edge whose target was finished after its source lies on a closed walk
(`Grown.reaches_back_of_edge`), whichever of the two ends the forward pass entered first and under
whichever root. Where there is no closed walk, all edges therefore lead to smaller finish times, and
the backward order is a topological one; a topological order in turn leaves no room for a closed
walk (`TopologicalOrder.acyclic`).

A component is marked by its size and by one loop. Being on a closed walk is a matter of the whole
component (`MutuallyReachable.onCycle_iff`), so the marks tell which components hold a cycle
(`Divided.holdsCycle_iff_forall`) and whether the graph has one at all
(`Divided.unmarked_iff_acyclic`).
-/

set_option autoImplicit false

namespace StrongComponents

namespace Graph

/-- No vertex lies on a closed walk. -/
def Acyclic (g : Graph) : Prop := ∀ v, ¬ g.OnCycle v

/-- The list holds every vertex once, and every edge leads to a later place in it. -/
structure TopologicalOrder (g : Graph) (order : List Nat) : Prop where
  perm : order.Perm (List.range g.vertexCount)
  ascends : ∀ u v, g.Edge u v → order.idxOf u < order.idxOf v

variable {g : Graph} {u v : Nat} {order : List Nat}

/-- Along a walk the places do not descend. -/
theorem TopologicalOrder.idxOf_le (h : g.TopologicalOrder order) (huv : g.Reaches u v) :
    order.idxOf u ≤ order.idxOf v := by
  induction huv with
  | refl => exact Nat.le_refl _
  | tail _ he ih => exact Nat.le_of_lt (Nat.lt_of_le_of_lt ih (h.ascends _ _ he))

theorem TopologicalOrder.acyclic (h : g.TopologicalOrder order) : g.Acyclic := by
  rintro v ⟨w, he, hback⟩
  exact absurd (h.idxOf_le hback) (Nat.not_le.2 (h.ascends v w he))

/-- Of mutually reachable vertices all lie on a closed walk or none does. -/
theorem MutuallyReachable.onCycle_iff (h : g.MutuallyReachable u v) :
    g.OnCycle u ↔ g.OnCycle v := by
  by_cases huv : u = v
  · rw [huv]
  · exact ⟨fun _ => h.symm.onCycle (Ne.symm huv), fun _ => h.onCycle huv⟩

end Graph

/-! ## Edges and finish times -/

namespace Passes.Grown

variable {g r : Graph} {order : List Nat} {passes : Passes} {forward backward : Forest}
  {u v s t : Nat}

/-- An edge to a vertex that was finished later can be walked back. -/
theorem reaches_back_of_edge (h : Grown g order passes r forward backward) (he : g.Edge u v)
    (hs : passes.finishTime[u]? = some s) (ht : passes.finishTime[v]? = some t) (hlt : s < t) :
    g.Reaches v u := by
  have hsource : ∃ s' ≤ t, passes.finishTime[u]? = some s' := ⟨s, Nat.le_of_lt hlt, hs⟩
  have htarget : ∃ s' ≤ t, passes.finishTime[v]? = some s' := ⟨t, Nat.le_refl t, ht⟩
  exact h.reaches_of_latest ht (.tail (.refl hsource) he htarget)

theorem backwardOrder_perm (h : Grown g order passes r forward backward) :
    passes.backwardOrder.toList.Perm (List.range g.vertexCount) := by
  rw [h.backwardOrder_eq]
  exact (List.reverse_perm _).trans h.postorder_perm

/-- The place of a vertex in the backward order is how many vertices were finished after it. -/
theorem idxOf_backwardOrder (h : Grown g order passes r forward backward) (hv : v < g.vertexCount) :
    ∃ t ≤ g.vertexCount, passes.finishTime[v]? = some t ∧
      passes.backwardOrder.toList.idxOf v = g.vertexCount - t := by
  obtain ⟨t, ht, -, hle, hplace⟩ := h.exists_time hv
  refine ⟨t, hle, ht, ?_⟩
  obtain ⟨hlt, rfl⟩ := List.getElem?_eq_some_iff.1 ((Array.getElem?_toList).trans hplace)
  exact (h.backwardOrder_perm.nodup_iff.2 List.nodup_range).idxOf_getElem _ hlt

/-- Without closed walks the backward order is a topological one. -/
theorem topologicalOrder (h : Grown g order passes r forward backward) (hacyclic : g.Acyclic) :
    g.TopologicalOrder passes.backwardOrder.toList where
  perm := h.backwardOrder_perm
  ascends := by
    intro u v he
    obtain ⟨s, hle, hs, hsource⟩ := h.idxOf_backwardOrder he.source_lt
    obtain ⟨t, -, ht, htarget⟩ := h.idxOf_backwardOrder (he.target_lt h.wellFormed)
    have hback : ¬ g.Reaches v u := fun hvu => hacyclic u ⟨v, he, hvu⟩
    have hnotless : ¬ s < t := fun hlt => hback (h.reaches_back_of_edge he hs ht hlt)
    -- Vertices with one time have one place, and the edge is no loop.
    have hne : s ≠ t := by
      rintro rfl
      have hplaces : passes.backwardOrder.toList.idxOf u = passes.backwardOrder.toList.idxOf v :=
        hsource.trans htarget.symm
      have hmem : u ∈ passes.backwardOrder.toList :=
        h.backwardOrder_perm.mem_iff.2 (List.mem_range.2 he.source_lt)
      obtain rfl := (List.idxOf_inj hmem).1 hplaces
      exact hback .refl
    omega

end Passes.Grown

namespace Graph

/-- For every graph, order and strategy with which the passes succeed, both ends of every
edge have finish times, and if the target has the larger one it reaches the source, so that
both are in one component. The backward order is a topological order of the vertices iff no
vertex lies on a closed walk. -/
theorem passesInOrder_edges_by_finish (g : Graph) (supply : Stack.Supply) (strategy : Strategy)
    (order : List Nat) (passes : Passes) (h : g.passesInOrder supply strategy order = .ok passes) :
    (∀ u v, g.Edge u v → ∃ s t, passes.finishTime[u]? = some s ∧ passes.finishTime[v]? = some t ∧
      (s < t → g.Reaches v u ∧ passes.leader[u]? = passes.leader[v]?)) ∧
    (g.Acyclic ↔ g.TopologicalOrder passes.backwardOrder.toList) := by
  obtain ⟨r, forward, backward, hgrown⟩ := exists_grown_of_passesInOrder h
  refine ⟨?_, hgrown.topologicalOrder, fun htopological => htopological.acyclic⟩
  intro u v he
  have hu := he.source_lt
  have hv := he.target_lt hgrown.wellFormed
  obtain ⟨s, hs, -⟩ := hgrown.exists_time hu
  obtain ⟨t, ht, -⟩ := hgrown.exists_time hv
  refine ⟨s, t, hs, ht, fun hlt => ?_⟩
  have hback := hgrown.reaches_back_of_edge he hs ht hlt
  exact ⟨hback, (hgrown.leader_eq_iff hu hv).2 ⟨he.reaches, hback⟩⟩

/-- On a cycle with a tail, entered in its middle, the edge `1 → 2` leads to the vertex finished
last. On the path without the edge back, taken from its end, the backward order is the path. -/
theorem passesInOrder_edges_by_finish_path :
    (⟨#[#[1], #[2, 3], #[0], #[]]⟩ : Graph).passesInOrder Stack.ofAddressSpace .iterative [2, 0, 1,
      3] =
        .ok ⟨#[3, 2, 4, 1], #[2, 0, 1, 3], #[2, 2, 2, 3]⟩ ∧
      (⟨#[#[1], #[2, 3], #[0], #[]]⟩ : Graph).Reaches 2 1 ∧
      (⟨#[#[1], #[2, 3], #[], #[]]⟩ : Graph).passesInOrder Stack.ofAddressSpace (.recursive 3) [3,
        2, 1, 0] =
        .ok ⟨#[4, 3, 2, 1], #[0, 1, 2, 3], #[0, 1, 2, 3]⟩ ∧
      (⟨#[#[1], #[2, 3], #[], #[]]⟩ : Graph).Acyclic := by
  have hcycle : (⟨#[#[1], #[2, 3], #[0], #[]]⟩ : Graph).passesInOrder Stack.ofAddressSpace
    .iterative [2, 0, 1, 3] = .ok ⟨#[3, 2, 4, 1], #[2, 0, 1, 3], #[2, 2, 2, 3]⟩ := by cbv
  have hpath : (⟨#[#[1], #[2, 3], #[], #[]]⟩ : Graph).passesInOrder Stack.ofAddressSpace
    (.recursive 3) [3, 2, 1, 0] = .ok ⟨#[4, 3, 2, 1], #[0, 1, 2, 3], #[0, 1, 2, 3]⟩ := by cbv
  have hedge : (⟨#[#[1], #[2, 3], #[0], #[]]⟩ : Graph).Edge 1 2 := ⟨#[2, 3], rfl, by simp⟩
  obtain ⟨s, t, hs, ht, hback⟩ := (passesInOrder_edges_by_finish _ _ _ _ _ hcycle).1 1 2 hedge
  cases hs
  cases ht
  have htopological : (⟨#[#[1], #[2, 3], #[], #[]]⟩ : Graph).TopologicalOrder [0, 1, 2, 3] := by
    refine ⟨by decide, ?_⟩
    intro u v he
    rw [← mem_edges, show edges ⟨#[#[1], #[2, 3], #[], #[]]⟩ = [(0, 1), (1, 2), (1, 3)] from rfl]
      at he
    simp only [List.mem_cons, Prod.mk.injEq, List.not_mem_nil, or_false] at he
    rcases he with ⟨rfl, rfl⟩ | ⟨rfl, rfl⟩ | ⟨rfl, rfl⟩ <;> decide
  exact ⟨hcycle, (hback (by decide)).1, hpath,
    (passesInOrder_edges_by_finish _ _ _ _ _ hpath).2.2 htopological⟩

/-! ## Marks -/

namespace Divided

variable {g : Graph} {d : Decomposition} {c : Nat} {members : Array Nat}

/-- The mark of a component tells whether it holds a cycle. -/
theorem cyclic_getElem? (hd : g.Divided d) (hc : d.components[c]? = some members) :
    d.cyclic[c]? = some (decide (g.HoldsCycle members.toList)) := by
  rw [← Array.getElem?_toList, hd.cyclic, List.getElem?_map, Array.getElem?_toList, hc,
    Option.map_some]

/-- One member of a component lies on a closed walk iff all do. -/
theorem holdsCycle_iff_forall (hd : g.Divided d) (hc : d.components[c]? = some members) :
    g.HoldsCycle members.toList ↔ ∀ v ∈ members, g.OnCycle v := by
  have hmem := Array.mem_of_getElem? hc
  constructor
  · rintro ⟨u, hu, hcycle⟩ v hv
    have huv := (hd.mem_iff members hmem u (Array.mem_toList_iff.1 hu) v).1 hv
    exact huv.onCycle_iff.1 hcycle
  · intro hall
    obtain ⟨v, hv⟩ := Array.exists_mem_of_ne_empty members (hd.nonempty members hmem)
    exact ⟨v, Array.mem_toList_iff.2 hv, hall v hv⟩

/-- No component is marked iff there is no closed walk. -/
theorem unmarked_iff_acyclic (hd : g.Divided d) :
    (∀ mark ∈ d.cyclic, mark = false) ↔ g.Acyclic := by
  constructor
  · rintro hmarks v ⟨w, he, hback⟩
    -- The vertex stands in some component, whose mark would be set.
    obtain ⟨members, hmem, hv⟩ := hd.mem_flatMap_iff.2 he.source_lt
    obtain ⟨c, hc⟩ := Array.mem_iff_getElem?.1 hmem
    have hmark := hmarks _ (Array.mem_of_getElem? (hd.cyclic_getElem? hc))
    exact of_decide_eq_false hmark ⟨v, Array.mem_toList_iff.2 hv, w, he, hback⟩
  · intro hacyclic mark hmark
    rw [← Array.mem_toList_iff, hd.cyclic] at hmark
    obtain ⟨members, -, rfl⟩ := List.mem_map.1 hmark
    apply decide_eq_false
    rintro ⟨v, -, hcycle⟩
    exact hacyclic v hcycle

end Divided

/-- For every graph, strategy and order with which a decomposition succeeds, each component has a
mark, which is set iff some member of the component lies on a closed walk of at least one edge, and
likewise iff every member does. All marks are clear iff the graph has no such walk. -/
theorem decomposition_marks_cycles (g : Graph) (supply : Stack.Supply) (strategy : Strategy)
    (d : Decomposition) (h : g.decompose supply strategy = .ok d ∨
      ∃ order, g.decomposeInOrder supply strategy order = .ok d) :
    d.cyclic.size = d.components.size ∧
      (∀ (c : Nat) (members : Array Nat), d.components[c]? = some members →
        members ≠ #[] ∧ ∃ mark, d.cyclic[c]? = some mark ∧
        (mark = true ↔ ∃ v ∈ members, g.OnCycle v) ∧ (mark = true ↔ ∀ v ∈ members, g.OnCycle v)) ∧
      ((∀ mark ∈ d.cyclic, mark = false) ↔ g.Acyclic) := by
  have hd := divided_of_decompose h
  refine ⟨?_, ?_, hd.unmarked_iff_acyclic⟩
  · rw [← Array.length_toList, hd.cyclic, List.length_map, Array.length_toList]
  · intro c members hc
    refine ⟨hd.nonempty members (Array.mem_of_getElem? hc), _, hd.cyclic_getElem? hc, ?_, ?_⟩
    · rw [decide_eq_true_iff, HoldsCycle]
      simp only [Array.mem_toList_iff]
    · rw [decide_eq_true_iff, hd.holdsCycle_iff_forall hc]

/-- A cycle of two vertices with a loop on it and an edge to a vertex that is alone without a
loop. -/
theorem decomposition_marks_cycles_loop :
    ∃ d,
      (⟨#[#[1, 1], #[0, 1, 2], #[]]⟩ : Graph).decomposeInOrder Stack.ofAddressSpace (.recursive 2)
        [2, 1, 0] = .ok d ∧
      d.cyclic = #[true, false] ∧ (⟨#[#[1, 1], #[0, 1, 2], #[]]⟩ : Graph).OnCycle 0 ∧
      ¬ (⟨#[#[1, 1], #[0, 1, 2], #[]]⟩ : Graph).OnCycle 2 := by
  have hrun : (⟨#[#[1, 1], #[0, 1, 2], #[]]⟩ : Graph).decomposeInOrder Stack.ofAddressSpace
    (.recursive 2) [2, 1, 0] =
    .ok ⟨#[1, 1, 2], #[2, 3, 1], #[0, 0, 1], #[#[0, 1], #[2]], #[true, false]⟩ := by cbv
  obtain ⟨-, hmarks, -⟩ := decomposition_marks_cycles _ _ _ _ (.inr ⟨[2, 1, 0], hrun⟩)
  obtain ⟨-, mark, hmark, -, hset⟩ := hmarks 0 #[0, 1] rfl
  obtain ⟨-, mark', hmark', hclear, -⟩ := hmarks 1 #[2] rfl
  cases hmark
  cases hmark'
  refine ⟨_, hrun, rfl, hset.1 rfl 0 (by simp), fun hcycle => ?_⟩
  exact absurd (hclear.2 ⟨2, by simp, hcycle⟩) (by decide)

end Graph

end StrongComponents
