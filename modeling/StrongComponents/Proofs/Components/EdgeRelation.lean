import StrongComponents.Proofs.Components.Decomposition
import StrongComponents.Proofs.Components.Partition

/-!
# The decomposition depends on the edge relation alone

Passes in different orders, by different strategies and over graphs that list the same edges
differently give other finish times and other leaders. What is built from the leaders is the same:
two vertices have equal leaders iff they are mutually reachable (`leader_eq_iff_of_decompose`), the
partition depends only on which leaders are equal (`Partition.grouped_congr`), and a component of
one vertex is cyclic iff that vertex is its own neighbour (`exists_hasSelfLoop`). None of these
changes when all edges are turned round (`decomposition_eq_of_edges`).
-/

set_option autoImplicit false

namespace StrongComponents.Graph

variable {g h : Graph} {supply : Stack.Supply} {strategy : Strategy} {d : Decomposition}

/-! ## Loops -/

/-- Looking for a loop at a vertex of the graph succeeds and says whether there is one. -/
theorem exists_hasSelfLoop {v : Nat} (hv : v < g.vertexCount) :
    ∃ loop, g.hasSelfLoop v = .ok loop ∧ (loop = true ↔ g.Edge v v) := by
  have hadj : g.adjacency[v]? = some g.adjacency[v] := Array.getElem?_eq_getElem hv
  refine ⟨g.adjacency[v].contains v, ?_, ?_⟩
  · rw [hasSelfLoop, neighbors, fetch_eq_ok_iff.2 hadj]
    rfl
  · rw [Array.contains_iff_mem]
    constructor
    · exact fun hmem => ⟨g.adjacency[v], hadj, hmem⟩
    · rintro ⟨targets, htargets, hmem⟩
      rw [hadj] at htargets
      cases htargets
      exact hmem

/-- Looking for a loop past the last vertex fails. -/
theorem hasSelfLoop_of_le {v : Nat} (hv : g.vertexCount ≤ v) :
    g.hasSelfLoop v = .error (.indexOutOfBounds g.vertexCount v) := by
  rw [hasSelfLoop, neighbors, fetch_eq_error_iff.2 ⟨hv, rfl⟩]
  rfl

/-- Graphs on the same vertices with the same loops agree on which components are cyclic. -/
theorem cyclicComponents_congr (hcount : h.vertexCount = g.vertexCount)
    (hloop : ∀ v, h.Edge v v ↔ g.Edge v v) : h.cyclicComponents = g.cyclicComponents := by
  have hself : ∀ v, h.hasSelfLoop v = g.hasSelfLoop v := by
    intro v
    rcases Nat.lt_or_ge v g.vertexCount with hv | hv
    · obtain ⟨loop, hg, hiff⟩ := exists_hasSelfLoop hv
      obtain ⟨loop', hh, hiff'⟩ := exists_hasSelfLoop (hcount.symm ▸ hv)
      rw [hg, hh, Bool.eq_iff_iff.2 (hiff'.trans ((hloop v).trans hiff.symm))]
    · rw [hasSelfLoop_of_le hv, hasSelfLoop_of_le (hcount ▸ hv), hcount]
  have hcyclic : h.isCyclic = g.isCyclic := by
    funext component
    simp only [isCyclic, hself]
  funext components
  rw [cyclicComponents, cyclicComponents, hcyclic]

/-! ## Decompositions -/

/-- In a decomposition every vertex has a leader, and two vertices have the same one iff
they are mutually reachable. -/
theorem leader_eq_iff_of_decompose
    (hd : g.decompose supply strategy = .ok d ∨
      ∃ order, g.decomposeInOrder supply strategy order = .ok d) :
    d.leader.size = g.vertexCount ∧ ∀ u < g.vertexCount, ∀ v < g.vertexCount,
      d.leader[u]? = d.leader[v]? ↔ g.MutuallyReachable u v := by
  obtain ⟨order, passes, horder, hrun, hgrouped⟩ := exists_passes_of_decompose hd
  obtain ⟨r, forward, backward, hgrown⟩ := Passes.exists_grown horder hrun
  rw [leader_of_ofPasses hgrouped]
  exact ⟨hgrown.leader_size, fun u hu v hv => hgrown.leader_eq_iff hu hv⟩

/-- The other tables of a decomposition are computed from its leaders. -/
theorem grouped_of_decompose
    (hd : g.decompose supply strategy = .ok d ∨
      ∃ order, g.decomposeInOrder supply strategy order = .ok d) :
    d.componentOf = (Partition.grouped d.leader).componentOf ∧
      d.components = (Partition.grouped d.leader).components ∧
      g.cyclicComponents d.components = .ok d.cyclic := by
  obtain ⟨order, passes, -, -, hgrouped⟩ := exists_passes_of_decompose hd
  rw [Decomposition.ofPasses] at hgrouped
  obtain ⟨partition, hpartition, hgrouped⟩ := bind_eq_ok_iff.1 hgrouped
  cases (Partition.ofLeaders_eq _).symm.trans hpartition
  obtain ⟨cyclic, hcyclic, hgrouped⟩ := bind_eq_ok_iff.1 hgrouped
  cases hgrouped
  exact ⟨rfl, rfl, hcyclic⟩

/-- Two graphs on the same vertices with the same edges, or with the same edges all turned round,
have the same components with the same numbers and members, the same components among them are
cyclic, and the sizes are the same. Neighbour order, repeated edges, the order of the forward pass
and the strategy make no difference. -/
theorem decomposition_eq_of_edges (g h : Graph) (supply supply' : Stack.Supply)
    (strategy strategy' : Strategy) (d d' : Decomposition)
    (hcount : h.vertexCount = g.vertexCount)
    (hedges : (∀ u v, h.Edge u v ↔ g.Edge u v) ∨ ∀ u v, h.Edge u v ↔ g.Edge v u)
    (hd : g.decompose supply strategy = .ok d ∨
      ∃ order, g.decomposeInOrder supply strategy order = .ok d)
    (hd' : h.decompose supply' strategy' = .ok d' ∨
      ∃ order, h.decomposeInOrder supply' strategy' order = .ok d') :
    d'.componentOf = d.componentOf ∧ d'.components = d.components ∧ d'.cyclic = d.cyclic ∧
      d'.sizesDescending = d.sizesDescending := by
  obtain ⟨hsize, hleader⟩ := leader_eq_iff_of_decompose hd
  obtain ⟨hsize', hleader'⟩ := leader_eq_iff_of_decompose hd'
  obtain ⟨hcomponentOf, hcomponents, hcyclic⟩ := grouped_of_decompose hd
  obtain ⟨hcomponentOf', hcomponents', hcyclic'⟩ := grouped_of_decompose hd'
  have hpartition : Partition.grouped d'.leader = Partition.grouped d.leader := by
    apply Partition.grouped_congr
    · rw [hsize, hsize', hcount]
    · intro u hu v hv
      rw [hsize'] at hu hv
      rw [hleader' u hu v hv, hleader u (hcount ▸ hu) v (hcount ▸ hv)]
      exact mutuallyReachable_congr hedges
  have hloop : ∀ v, h.Edge v v ↔ g.Edge v v := by
    intro v
    rcases hedges with hsame | hturned
    · exact hsame v v
    · exact hturned v v
  have hsame : d'.components = d.components := by rw [hcomponents, hcomponents', hpartition]
  refine ⟨?_, hsame, ?_, ?_⟩
  · rw [hcomponentOf, hcomponentOf', hpartition]
  · rw [cyclicComponents_congr hcount hloop, hsame, hcyclic] at hcyclic'
    exact (Except.ok.inj hcyclic').symm
  · rw [Decomposition.sizesDescending, Decomposition.sizesDescending, componentSizes_eq,
      componentSizes_eq, hpartition]

/-- The cycle `0 → 1 → 0` with an edge to `2`, and the same turned round with an edge doubled: the
leaders and the finish times differ, the components do not. -/
theorem decomposition_eq_of_edges_turned :
    ∃ d d', (⟨#[#[1], #[0, 2], #[]]⟩ : Graph).decompose Stack.ofAddressSpace .iterative = .ok d ∧
      (⟨#[#[1, 1], #[0], #[1]]⟩ : Graph).decomposeInOrder Stack.ofAddressSpace (.recursive 3) [1, 2,
        0] = .ok d' ∧
      d'.leader ≠ d.leader ∧ d'.finishTime ≠ d.finishTime ∧
      d'.componentOf = d.componentOf ∧ d'.components = d.components ∧ d'.cyclic = d.cyclic ∧
      d'.sizesDescending = d.sizesDescending := by
  have hd : (⟨#[#[1], #[0, 2], #[]]⟩ : Graph).decompose Stack.ofAddressSpace .iterative =
      .ok ⟨#[0, 0, 2], #[3, 2, 1], #[0, 0, 1], #[#[0, 1], #[2]], #[true, false]⟩ := by cbv
  have hd' : (⟨#[#[1, 1], #[0], #[1]]⟩ : Graph).decomposeInOrder Stack.ofAddressSpace
    (.recursive 3) [1, 2, 0] =
    .ok ⟨#[1, 1, 2], #[1, 2, 3], #[0, 0, 1], #[#[0, 1], #[2]], #[true, false]⟩ := by cbv
  have hturned : ∀ u v, (⟨#[#[1, 1], #[0], #[1]]⟩ : Graph).Edge u v ↔
      (⟨#[#[1], #[0, 2], #[]]⟩ : Graph).Edge v u := by
    intro u v
    rw [← mem_edges, ← mem_edges, show edges ⟨#[#[1, 1], #[0], #[1]]⟩ =
      [(0, 1), (0, 1), (1, 0), (2, 1)] from rfl, show edges ⟨#[#[1], #[0, 2], #[]]⟩ =
      [(0, 1), (1, 0), (1, 2)] from rfl]
    simp only [List.mem_cons, Prod.mk.injEq, List.not_mem_nil, or_false]
    omega
  refine ⟨_, _, hd, hd', by decide, by decide, ?_⟩
  exact decomposition_eq_of_edges ⟨#[#[1], #[0, 2], #[]]⟩ ⟨#[#[1, 1], #[0], #[1]]⟩ _ _ .iterative
    (.recursive 3) _ _ rfl (.inr hturned) (.inl hd) (.inr ⟨[1, 2, 0], hd'⟩)

end StrongComponents.Graph
