import StrongComponents.Proofs.Report.Description
import Mathlib.Algebra.BigOperators.Group.List.Basic
import Mathlib.Algebra.GroupWithZero.Nat
import Mathlib.Data.List.Sort

/-!
# Component sizes counted in two ways

The sizes of components are counted leader by leader in a table without an order, and
they are the lengths of the member lists that a report goes through by rank. Both come
out as the same list: where larger comes first, sizes do not tell how they were arranged
before (`eq_componentSizes_of_perm`). Hence the sizes in a report are those of its
decomposition (`componentSizes_agree`).
-/

set_option autoImplicit false

namespace StrongComponents

/-! ## Sizes by leaders -/

section Leaders

variable (leaders : Array Nat)

/-- The sizes counted by leader are the sizes of the components, in some order. -/
theorem componentSizes_perm :
    (componentSizes leaders).Perm
      ((Partition.grouped leaders).components.toList.map Array.size) := by
  rw [componentSizes_eq]
  exact List.mergeSort_perm _ _

theorem pairwise_componentSizes : (componentSizes leaders).Pairwise (· ≥ ·) :=
  List.pairwise_mergeSort' (· ≥ ·) _

/-- No component is counted without a member. -/
theorem pos_of_mem_componentSizes {size : Nat} (hsize : size ∈ componentSizes leaders) :
    0 < size := by
  obtain ⟨members, hmembers, rfl⟩ := List.mem_map.1 ((componentSizes_perm leaders).mem_iff.1 hsize)
  exact Array.size_pos_iff.2
    (Partition.nonempty_of_mem_components (Array.mem_toList_iff.1 hmembers))

/-- Every vertex is counted once. -/
theorem sum_componentSizes : (componentSizes leaders).sum = leaders.size := by
  calc (componentSizes leaders).sum
      = ((Partition.grouped leaders).components.toList.map Array.size).sum :=
        (componentSizes_perm leaders).sum_eq
    _ = ((Partition.grouped leaders).components.toList.flatMap Array.toList).length :=
        List.length_flatMap.symm
    _ = (List.range leaders.size).length := (Partition.flatMap_components_perm leaders).length_eq
    _ = leaders.size := List.length_range

variable {leaders}

/-- The counts in whatever order, arranged in whatever way so that they do not increase, are the
sizes. -/
theorem eq_componentSizes_of_perm {sizes : List Nat}
    (hperm : sizes.Perm (leaderCounts leaders).values) (hsizes : sizes.Pairwise (· ≥ ·)) :
    sizes = componentSizes leaders := by
  have hcounts : sizes.Perm (componentSizes leaders) := hperm.trans (List.mergeSort_perm _ _).symm
  exact hcounts.eq_of_pairwise' hsizes (pairwise_componentSizes leaders)

end Leaders

/-! ## Sizes by rank -/

namespace Computation

/-- Ranked components do not get larger. -/
theorem pairwise_size_ranked (d : Decomposition) :
    ((ranked d).map Array.size).Pairwise (· ≥ ·) := by
  rw [List.pairwise_map, ranked, List.pairwise_map]
  apply (ranking_pairwise d).imp
  intro a b hab
  omega

/-- Where the components are grouped by leader, ranking and counting give the same sizes. -/
theorem map_size_ranked {d : Decomposition}
    (hd : d.components = (Partition.grouped d.leader).components) :
    (ranked d).map Array.size = d.sizesDescending := by
  have hperm : ((ranked d).map Array.size).Perm d.sizesDescending := by
    refine ((ranked_perm d).map Array.size).trans ?_
    rw [hd]
    exact (componentSizes_perm d.leader).symm
  exact hperm.eq_of_pairwise' (pairwise_size_ranked d) (pairwise_componentSizes d.leader)

variable {V : Type} [BEq V] [Hashable V] [Label V] {g : LabeledGraph V} {d : Decomposition}

/-- A description that succeeds lists the sizes of the components asked for. -/
theorem sizes_of_describe (ids : List Nat) :
    ∀ {listing : Listing}, (describe g d ids).result = .ok listing →
      listing.sizes = ids.map fun c => (d.components[c]?.getD #[]).size := by
  induction ids with
  | nil =>
      intro listing h
      cases h
      rfl
  | cons c rest ih =>
      intro listing h
      rw [describe] at h
      cases hc : fetch d.components c with
      | error e => simp [hc] at h
      | ok members =>
          cases hannounce : announce g d c members with
          | error e => simp [hc, hannounce] at h
          | ok event =>
              cases htexts : members.toList.mapM (labelText g) with
              | error e => simp [hc, hannounce, htexts] at h
              | ok texts =>
                  simp only [hc, hannounce, htexts, map_eq_ok_iff] at h
                  obtain ⟨others, hothers, rfl⟩ := h
                  rw [List.map_cons, ← ih hothers, fetch_eq_ok_iff.1 hc]
                  rfl

/-- A report has the sizes of the ranked components. -/
theorem sizes_of_aggregate {r : Report} (h : (aggregate g d).result = .ok r) :
    r.sizes = (ranked d).map Array.size := by
  simp only [aggregate, bind_eq_ok_iff] at h
  obtain ⟨listing, hlisting, leaders, -, h⟩ := h
  cases h
  show listing.sizes = _
  rw [sizes_of_describe (ranking d) hlisting, ranked, List.map_map]
  rfl

end Computation

/-- A computation that succeeds has a decomposition, and reports the sizes of its ranked
components. -/
theorem LabeledGraph.sizes_of_compute {V : Type} [BEq V] [Hashable V] [Label V] {g : LabeledGraph V}
    {detector : Detector} {r : Report} (h : (g.compute detector).2 = .ok r) :
    ∃ d, detector g.graph = .ok d ∧ r.sizes = (Computation.ranked d).map Array.size := by
  obtain ⟨d, hdetected⟩ := exists_decomposed_of_compute h
  refine ⟨d, hdetected, ?_⟩
  rw [compute] at h
  simp only [hdetected, failing_eq_ok_iff] at h
  exact Computation.sizes_of_aggregate h

/-- The sizes counted by leader are the sizes of the components, largest first; they are
positive and sum up to the number of vertices, and neither the order of the counts nor the way
of sorting them makes a difference. Hence a report on a graph, whatever the strategy, has the
sizes that its decomposition counts. -/
theorem componentSizes_agree :
    (∀ leaders : Array Nat,
      (∃ p, Partition.ofLeaders leaders = .ok p ∧
        (componentSizes leaders).Perm (p.components.toList.map Array.size)) ∧
        (componentSizes leaders).Pairwise (· ≥ ·) ∧ (∀ size ∈ componentSizes leaders, 0 < size) ∧
        (componentSizes leaders).sum = leaders.size ∧
        ∀ counts sizes : List Nat, counts.Perm (leaderCounts leaders).values → sizes.Perm counts →
          sizes.Pairwise (· ≥ ·) → sizes = componentSizes leaders) ∧
      ∀ (V : Type) [BEq V] [Hashable V] [Label V] (g : LabeledGraph V) (supply : Stack.Supply)
        (strategy : Strategy) (r : Report),
        (g.compute (·.decompose supply strategy)).2 = .ok r →
          ∃ d, g.graph.decompose supply strategy = .ok d ∧ r.sizes = d.sizesDescending := by
  constructor
  · intro leaders
    refine ⟨⟨_, Partition.ofLeaders_eq leaders, componentSizes_perm leaders⟩,
      pairwise_componentSizes leaders, fun _ => pos_of_mem_componentSizes leaders,
      sum_componentSizes leaders, ?_⟩
    intro counts sizes hcounts hsizes hsorted
    exact eq_componentSizes_of_perm (hsizes.trans hcounts) hsorted
  · intro V _ _ _ g supply strategy r h
    obtain ⟨d, hdetected, hsizes⟩ := LabeledGraph.sizes_of_compute h
    obtain ⟨-, hcomponents, -⟩ := Graph.grouped_of_decompose (.inl hdetected)
    exact ⟨d, hdetected, hsizes.trans (Computation.map_size_ranked hcomponents)⟩

/-- Leaders past every vertex, and a graph of integers in which two lead to each other. -/
theorem componentSizes_agree_integers :
    [1, 2, 3].Perm (leaderCounts #[noLeader, 3, noLeader, 7, 3, noLeader]).values ∧
      componentSizes #[noLeader, 3, noLeader, 7, 3, noLeader] = [3, 2, 1] ∧
      ∃ (g : LabeledGraph Int) (r : Report) (d : Decomposition),
        LabeledGraph.ofEdgeList [(8, -5), (3, -5), (-5, 3), (7, 7), (7, 3)] = .ok g ∧
        (g.compute (·.decompose Stack.ofAddressSpace .iterative)).2 = .ok r ∧
        g.graph.decompose Stack.ofAddressSpace .iterative = .ok d ∧
        r.sizes = d.sizesDescending ∧ r.sizes = [2, 1, 1] := by
  have hcounts : [1, 2, 3].Perm (leaderCounts #[noLeader, 3, noLeader, 7, 3, noLeader]).values := by
    refine List.Perm.trans ?_ (values_leaderCounts_perm _).symm
    decide
  have hcounted :=
    (componentSizes_agree.1 _).2.2.2.2 [1, 2, 3] [3, 2, 1] hcounts (by decide) (by decide)
  have hcomputed : (LabeledGraph.ofEdgeList
      [((8 : Int), (-5 : Int)), (3, -5), (-5, 3), (7, 7), (7, 3)] >>= fun g =>
        g.graph.decompose Stack.ofAddressSpace .iterative >>= fun d =>
          (Computation.aggregate g d).result.map Report.sizes) = .ok [2, 1, 1] := by
    cbv
  obtain ⟨g, hg, hcomputed⟩ := bind_eq_ok_iff.1 hcomputed
  obtain ⟨d, hdetected, hcomputed⟩ := bind_eq_ok_iff.1 hcomputed
  obtain ⟨r, hr, hshown⟩ := map_eq_ok_iff.1 hcomputed
  have hresult : (g.compute (·.decompose Stack.ofAddressSpace .iterative)).2 = .ok r := by
    rw [LabeledGraph.compute]
    simp only [hdetected, hr]
    rfl
  obtain ⟨d', hd, hsizes⟩ := componentSizes_agree.2 Int g _ .iterative r hresult
  exact ⟨hcounts, hcounted.symm, g, r, d', hg, hresult, hd, hsizes, hshown⟩

end StrongComponents
