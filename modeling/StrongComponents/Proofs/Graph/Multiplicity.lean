import StrongComponents.Proofs.Graph.Reversal
import Mathlib.Data.List.Count
import Mathlib.Data.List.Sort
import Mathlib.Data.Prod.Basic

/-!
# How often edges occur

A graph is a list of neighbours for each vertex, so it says in which order and how often its
edges occur. `Graph.multiplicity` keeps the second and forgets the first. Where the
neighbour lists are sorted nothing is forgotten: there is only one such graph with given
multiplicities (`SortedWith.unique`).

Turning a graph round, and building one from a list of edges, both gather the edges into neighbour
lists in the order of a list (`Gathers`). What they give is told from that list alone. The graph
turned round has sorted neighbour lists and the multiplicities turned round, hence `reversed_twice`:
turning round twice sorts the neighbours and does nothing else.
-/

set_option autoImplicit false

namespace StrongComponents.Graph

/-- How many edges lead from one vertex to another. -/
def multiplicity (g : Graph) (u v : Nat) : Nat := (g.adjacency[u]?.getD #[]).count v

/-- Every neighbour list ascends; repeated edges stand side by side. -/
def SortedNeighbors (g : Graph) : Prop := ∀ targets ∈ g.adjacency, targets.toList.Pairwise (· ≤ ·)

instance : DecidablePred SortedNeighbors := fun g =>
  inferInstanceAs (Decidable (∀ targets ∈ g.adjacency, targets.toList.Pairwise (· ≤ ·)))

/-- The graph with each neighbour list sorted. -/
def sortNeighbors (g : Graph) : Graph :=
  ⟨g.adjacency.map fun targets => (targets.toList.mergeSort (· ≤ ·)).toArray⟩

variable {g h : Graph}

/-! ## Sorted graphs -/

theorem SortedNeighbors.pairwise (hg : g.SortedNeighbors) (u : Nat) :
    (g.adjacency[u]?.getD #[]).toList.Pairwise (· ≤ ·) := by
  cases hu : g.adjacency[u]? with
  | none => exact List.Pairwise.nil
  | some targets => exact hg targets (Array.mem_of_getElem? hu)

/-- The graph has `n` vertices, sorted neighbour lists, and every edge as often as it is counted. -/
structure SortedWith (g : Graph) (n : Nat) (count : Nat → Nat → Nat) : Prop where
  vertexCount_eq : g.vertexCount = n
  sorted : g.SortedNeighbors
  multiplicity_eq : ∀ u v, g.multiplicity u v = count u v

theorem SortedNeighbors.sortedWith (hg : g.SortedNeighbors) :
    g.SortedWith g.vertexCount g.multiplicity :=
  ⟨rfl, hg, fun _ _ => rfl⟩

/-- Sorted neighbour lists leave no choice but how often each edge occurs. -/
theorem SortedWith.unique {n : Nat} {count : Nat → Nat → Nat} (hg : g.SortedWith n count)
    (hh : h.SortedWith n count) :
    g = h := by
  have hlists : ∀ u : Nat, g.adjacency[u]?.getD #[] = h.adjacency[u]?.getD #[] := by
    intro u
    -- Two lists with the same entries, as often, are the same once both are sorted.
    have hperm : (g.adjacency[u]?.getD #[]).toList.Perm (h.adjacency[u]?.getD #[]).toList := by
      rw [List.perm_iff_count]
      intro v
      rw [Array.count_toList, Array.count_toList]
      exact (hg.multiplicity_eq u v).trans (hh.multiplicity_eq u v).symm
    apply Array.toList_inj.1
    exact hperm.eq_of_pairwise (fun _ _ _ _ => Nat.le_antisymm) (hg.sorted.pairwise u)
      (hh.sorted.pairwise u)
  have hsize : g.adjacency.size = h.adjacency.size := hg.vertexCount_eq.trans hh.vertexCount_eq.symm
  obtain ⟨lists⟩ := g
  obtain ⟨lists'⟩ := h
  congr 1
  apply Array.ext hsize
  intro u hu hu'
  have hlist := hlists u
  simpa [hu, hu'] using hlist

/-- Sorting the neighbour lists neither adds nor removes an edge. -/
theorem sortedWith_sortNeighbors (g : Graph) :
    g.sortNeighbors.SortedWith g.vertexCount g.multiplicity where
  vertexCount_eq := Array.size_map
  sorted := by
    intro targets htargets
    obtain ⟨before, -, rfl⟩ := Array.mem_map.1 htargets
    exact List.pairwise_mergeSort' (· ≤ ·) before.toList
  multiplicity_eq := by
    intro u v
    rw [multiplicity, multiplicity, sortNeighbors, Array.getElem?_map]
    cases g.adjacency[u]? with
    | none => rfl
    | some targets =>
        simp only [Option.map_some, Option.getD_some]
        rw [← Array.count_toList, ← Array.count_toList]
        exact (List.mergeSort_perm targets.toList _).count_eq v

/-! ## The list of edges -/

/-- The edges into a vertex have as many times a source as the list has that edge. -/
theorem count_sourcesInto (u v : Nat) (es : List (Nat × Nat)) :
    (sourcesInto v es).count u = es.count (u, v) := by
  rw [sourcesInto, List.count_eq_countP, List.countP_map, List.countP_filter, List.count_eq_countP]
  rfl

theorem count_map_swap (u v : Nat) (es : List (Nat × Nat)) :
    (es.map Prod.swap).count (v, u) = es.count (u, v) :=
  List.count_map_of_injective es Prod.swap Prod.swap_injective (u, v)

theorem sourcesInto_append (v : Nat) (es fs : List (Nat × Nat)) :
    sourcesInto v (es ++ fs) = sourcesInto v es ++ sourcesInto v fs := by
  simp [sourcesInto]

/-- Turned round, the edges of a neighbour list lead into the vertex it belongs to, and into no
other. -/
theorem sourcesInto_swap_map (u source : Nat) (targets : List Nat) :
    sourcesInto u ((targets.map (source, ·)).map Prod.swap) = if source = u then targets
      else [] := by
  induction targets with
  | nil => simp [sourcesInto]
  | cons target targets ih =>
      by_cases hu : source = u
      · simp_all [sourcesInto]
      · simp_all [sourcesInto]

/-- The edges of some neighbour lists, the first of them that of vertex `k`: those from a vertex are
listed in the order of its neighbours. -/
theorem sourcesInto_edgesFrom (u : Nat) (lists : List (Array Nat)) :
    ∀ k, sourcesInto u (((lists.zipIdx k).flatMap fun p => p.1.toList.map (p.2, ·)).map Prod.swap) =
      if u < k then [] else (lists[u - k]?.getD #[]).toList := by
  induction lists with
  | nil => intro k; simp [sourcesInto]
  | cons targets lists ih =>
      intro k
      rw [List.zipIdx_cons, List.flatMap_cons, List.map_append, sourcesInto_append,
        sourcesInto_swap_map, ih (k + 1)]
      rcases Nat.lt_trichotomy u k with hlt | rfl | hgt
      · have hne : k ≠ u := by omega
        have hlt' : u < k + 1 := by omega
        simp [hne, hlt, hlt']
      · simp
      · have hne : k ≠ u := by omega
        have hge : ¬ u < k := by omega
        have hge' : ¬ u < k + 1 := by omega
        obtain ⟨i, rfl⟩ : ∃ i, u = k + 1 + i := ⟨u - (k + 1), by omega⟩
        have hi : k + 1 + i - k = i + 1 := by omega
        have hi' : k + 1 + i - (k + 1) = i := by omega
        rw [if_neg hne, if_neg hge, if_neg hge', hi, hi', List.getElem?_cons_succ, List.nil_append]

/-- The edges from a vertex are listed in the order of its neighbours. -/
theorem sourcesInto_swap_edges (g : Graph) (u : Nat) :
    sourcesInto u (g.edges.map Prod.swap) = (g.adjacency[u]?.getD #[]).toList := by
  have hlists := sourcesInto_edgesFrom u g.adjacency.toList 0
  rw [if_neg (Nat.not_lt_zero u), Nat.sub_zero, Array.getElem?_toList] at hlists
  exact hlists

theorem count_edges (g : Graph) (u v : Nat) : g.edges.count (u, v) = g.multiplicity u v := by
  rw [multiplicity, ← Array.count_toList, ← sourcesInto_swap_edges, count_sourcesInto,
    count_map_swap]

/-- Edges are listed by ascending source. -/
theorem pairwise_edges (g : Graph) : g.edges.Pairwise fun e f => e.1 ≤ f.1 := by
  rw [edges, List.pairwise_flatMap]
  constructor
  · rintro ⟨targets, source⟩ -
    rw [List.pairwise_map]
    exact List.pairwise_of_forall fun _ _ => Nat.le_refl source
  · have hpositions : g.adjacency.toList.zipIdx.Pairwise fun p q => p.2 < q.2 := by
      rw [← List.pairwise_map (f := Prod.snd) (R := (· < ·)), List.zipIdx_map_snd]
      exact List.pairwise_lt_range'
    apply hpositions.imp
    rintro ⟨targets, source⟩ ⟨targets', source'⟩ hlt e he f hf
    obtain ⟨target, -, rfl⟩ := List.mem_map.1 he
    obtain ⟨target', -, rfl⟩ := List.mem_map.1 hf
    exact Nat.le_of_lt hlt

/-- Graphs with the same multiplicities have the same edges, in some order. -/
theorem edges_perm_of_multiplicity
    (hmultiplicity : ∀ u v, g.multiplicity u v = h.multiplicity u v) :
    g.edges.Perm h.edges := by
  rw [List.perm_iff_count]
  rintro ⟨u, v⟩
  rw [count_edges, count_edges, hmultiplicity]

/-! ## The sorted list of edges -/

theorem edgeLe_iff {a b : Nat × Nat} : edgeLe a b = true ↔ a.1 < b.1 ∨ a.1 = b.1 ∧ a.2 ≤ b.2 := by
  simp [edgeLe]

theorem edgeLe_antisymm {a b : Nat × Nat} (hab : edgeLe a b = true) (hba : edgeLe b a = true) :
    a = b := by
  rw [edgeLe_iff] at hab hba
  apply Prod.ext
  · omega
  · omega

theorem edgeList_perm (g : Graph) : g.edgeList.Perm g.edges := List.mergeSort_perm _ _

theorem pairwise_edgeList (g : Graph) : g.edgeList.Pairwise fun a b => edgeLe a b = true := by
  apply List.pairwise_mergeSort
  · intro a b c hab hbc
    rw [edgeLe_iff] at hab hbc ⊢
    omega
  · intro a b
    rw [Bool.or_eq_true, edgeLe_iff, edgeLe_iff]
    omega

/-- The sorted list of edges forgets the order of neighbours. -/
theorem edgeList_eq_of_multiplicity
    (hmultiplicity : ∀ u v, g.multiplicity u v = h.multiplicity u v) :
    g.edgeList = h.edgeList := by
  have hperm : g.edgeList.Perm h.edgeList :=
    (edgeList_perm g).trans
      ((edges_perm_of_multiplicity hmultiplicity).trans (edgeList_perm h).symm)
  exact hperm.eq_of_pairwise (fun _ _ _ _ => edgeLe_antisymm) (pairwise_edgeList g)
    (pairwise_edgeList h)

/-! ## Edges gathered into neighbour lists -/

/-- Each of the `n` vertices has as its neighbours the sources of the listed edges into it, in their
order. -/
structure Gathers (g : Graph) (n : Nat) (es : List (Nat × Nat)) : Prop where
  vertexCount_eq : g.vertexCount = n
  adjacency : ∀ v < n, g.adjacency[v]? = some (sourcesInto v es).toArray

namespace Gathers

variable {n : Nat} {es : List (Nat × Nat)}

theorem multiplicity_eq (hg : g.Gathers n es) (hbound : ∀ e ∈ es, e.2 < n) (u v : Nat) :
    g.multiplicity v u = es.count (u, v) := by
  rw [multiplicity, ← count_sourcesInto]
  by_cases hv : v < n
  · simp [hg.adjacency v hv]
  · -- There is no neighbour list and no edge into `v`.
    have hsize : g.adjacency.size ≤ v := by
      rw [← vertexCount, hg.vertexCount_eq]
      exact Nat.le_of_not_lt hv
    have hnone : sourcesInto v es = [] := by
      rw [List.eq_nil_iff_forall_not_mem]
      exact fun w hw => hv (hbound _ (mem_sourcesInto.1 hw))
    simp [hsize, hnone]

/-- Neighbour lists are sorted where the edges into one vertex are listed by ascending source. -/
theorem sortedNeighbors (hg : g.Gathers n es) (hes : es.Pairwise fun e f => e.2 = f.2 → e.1 ≤ f.1) :
    g.SortedNeighbors := by
  intro targets htargets
  obtain ⟨v, hv⟩ := Array.mem_iff_getElem?.1 htargets
  have hlt : v < n := hg.vertexCount_eq ▸ (Array.getElem?_eq_some_iff.1 hv).1
  rw [hg.adjacency v hlt, Option.some.injEq] at hv
  rw [← hv, sourcesInto, List.pairwise_map]
  apply (hes.filter _).imp_of_mem
  intro e f he hf hle
  have hev := (List.mem_filter.1 he).2
  have hfv := (List.mem_filter.1 hf).2
  rw [beq_iff_eq] at hev hfv
  exact hle (hev.trans hfv.symm)

end Gathers

/-- Adding an edge between existing vertices attaches it. -/
theorem addEdge_eq_attach {source target : Nat} (hsource : source < g.vertexCount)
    (htarget : target < g.vertexCount) :
    g.addEdge source target = g.attach source target := by
  rw [addEdge, attach, if_pos hsource, if_pos htarget, if_pos hsource]

/-- Adding edges between existing vertices one by one attaches them, as if their
reverses were turned round. -/
theorem foldlM_addEdge (es : List (Nat × Nat)) :
    ∀ g : Graph, (∀ e ∈ es, e.1 < g.vertexCount ∧ e.2 < g.vertexCount) →
      es.foldlM (fun g e => g.addEdge e.1 e.2) g =
        (es.map Prod.swap).foldlM (fun g e => g.attach e.2 e.1) g := by
  induction es with
  | nil => exact fun _ _ => rfl
  | cons e es ih =>
      intro g hbound
      obtain ⟨hsource, htarget⟩ := hbound e List.mem_cons_self
      obtain ⟨g', hattach, hcount, -⟩ := attach_eq_ok e.2 hsource
      rw [List.foldlM_cons, addEdge_eq_attach hsource htarget, List.map_cons, List.foldlM_cons,
        Prod.snd_swap, Prod.fst_swap, hattach]
      apply ih
      intro f hf
      rw [hcount]
      exact hbound f (List.mem_cons_of_mem e hf)

/-- A graph can be built from edges between existing vertices. It gathers them, and has each of them
as often as it is listed. -/
theorem exists_ofEdges {n : Nat} {es : List (Nat × Nat)} (hbound : ∀ e ∈ es, e.1 < n ∧ e.2 < n) :
    ∃ g, ofEdges n es = .ok g ∧ g.Gathers n (es.map Prod.swap) ∧
      ∀ u v, g.multiplicity u v = es.count (u, v) := by
  have hempty : (edgeless n).vertexCount = n := Array.size_replicate
  have hsources : ∀ e ∈ es.map Prod.swap, e.2 < n := by
    intro e he
    obtain ⟨f, hf, rfl⟩ := List.mem_map.1 he
    exact (hbound f hf).1
  obtain ⟨g, hfold, hcount, hadjacency⟩ :=
    foldlM_attach (es.map Prod.swap) (edgeless n) (hempty.symm ▸ hsources)
  have hgathers : g.Gathers n (es.map Prod.swap) := by
    refine ⟨hcount.trans hempty, ?_⟩
    intro v hv
    rw [hadjacency]
    simp [edgeless, hv]
  refine ⟨g, ?_, hgathers, ?_⟩
  · rw [ofEdges, foldlM_addEdge es (edgeless n) (hempty.symm ▸ hbound), hfold]
  · intro u v
    rw [hgathers.multiplicity_eq hsources, count_map_swap]

/-- The graph built from the sorted list of edges has them in sorted neighbour lists. -/
theorem exists_ofEdges_edgeList (hg : g.WellFormed) :
    ∃ b, ofEdges g.vertexCount g.edgeList = .ok b ∧ b.SortedWith g.vertexCount g.multiplicity := by
  obtain ⟨b, hb, hgathers, hcount⟩ := exists_ofEdges fun e (he : e ∈ g.edgeList) =>
    have hedge := mem_edges.1 ((edgeList_perm g).mem_iff.1 he)
    ⟨hedge.source_lt, hedge.target_lt hg⟩
  refine ⟨b, hb, hgathers.vertexCount_eq, ?_, ?_⟩
  · apply hgathers.sortedNeighbors
    rw [List.pairwise_map]
    apply g.pairwise_edgeList.imp
    -- Of two edges from one source the sorted list has the one with the smaller target first.
    intro e f hle hsource
    rw [edgeLe_iff] at hle
    rw [Prod.snd_swap, Prod.snd_swap] at hsource
    rw [Prod.fst_swap, Prod.fst_swap]
    omega
  · intro u v
    rw [hcount, (edgeList_perm g).count_eq, count_edges]

/-! ## Turning round -/

/-- A graph has sorted neighbour lists and the edges of another graph turned round, each as
often. -/
def TurnedFrom (r g : Graph) : Prop := r.SortedWith g.vertexCount fun v u => g.multiplicity u v

/-- A well-formed graph can be turned round. -/
theorem exists_turnedFrom (hg : g.WellFormed) :
    ∃ r, g.reversed = .ok r ∧ r.WellFormed ∧ r.TurnedFrom g := by
  obtain ⟨r, hr, hcount, hadjacency⟩ := exists_reversed hg
  have hgathers : r.Gathers g.vertexCount g.edges := ⟨hcount, hadjacency⟩
  refine ⟨r, hr, wellFormed_of_reversed hg hr, hcount, ?_, ?_⟩
  · apply hgathers.sortedNeighbors
    apply g.pairwise_edges.imp
    exact fun hle _ => hle
  · intro v u
    rw [hgathers.multiplicity_eq fun e he => (mem_edges.1 he).target_lt hg, count_edges]

/-- Turning round twice cancels out on the edges. -/
theorem TurnedFrom.sortedWith {r : Graph} (hh : h.TurnedFrom r) (hr : r.TurnedFrom g) :
    h.SortedWith g.vertexCount g.multiplicity where
  vertexCount_eq := hh.vertexCount_eq.trans hr.vertexCount_eq
  sorted := hh.sorted
  multiplicity_eq := fun u v => (hh.multiplicity_eq u v).trans (hr.multiplicity_eq v u)

/-- Turning a well-formed graph round keeps the vertices, turns round how often each edge occurs,
and sorts the neighbour lists. Doing it twice gives the graph with its neighbour lists sorted, which
is also the graph built from the sorted list of edges: the edges and their number are those of the
graph, and it is the graph itself iff its neighbour lists were sorted before. Doing it once more
gives what doing it once gave. -/
theorem reversed_twice (g : Graph) (hg : g.WellFormed) :
    ∃ turned twice, g.reversed = .ok turned ∧ turned.reversed = .ok twice ∧
      turned.vertexCount = g.vertexCount ∧ (∀ u v, turned.multiplicity v u = g.multiplicity u v) ∧
      turned.SortedNeighbors ∧
      twice = g.sortNeighbors ∧ ofEdges g.vertexCount g.edgeList = .ok twice ∧
      twice.edgeList = g.edgeList ∧ twice.edgeCount = g.edgeCount ∧
      (twice = g ↔ g.SortedNeighbors) ∧ twice.reversed = .ok turned := by
  obtain ⟨turned, hturned, hwell, hfirst⟩ := exists_turnedFrom hg
  obtain ⟨twice, htwice, hwell', hsecond⟩ := exists_turnedFrom hwell
  obtain ⟨thrice, hthrice, -, hthird⟩ := exists_turnedFrom hwell'
  obtain ⟨built, hbuilt, hsame⟩ := exists_ofEdges_edgeList hg
  -- All these graphs have sorted neighbour lists, so their edges decide which of them are equal.
  have hboth : twice.SortedWith g.vertexCount g.multiplicity := hsecond.sortedWith hfirst
  refine ⟨turned, twice, hturned, htwice, hfirst.vertexCount_eq,
    fun u v => hfirst.multiplicity_eq v u, hfirst.sorted, hboth.unique (sortedWith_sortNeighbors g),
    ?_, edgeList_eq_of_multiplicity hboth.multiplicity_eq, ?_, ?_, ?_⟩
  · rw [hbuilt, hsame.unique hboth]
  · rw [edgeCount_eq_length, edgeCount_eq_length,
      (edges_perm_of_multiplicity hboth.multiplicity_eq).length_eq]
  · constructor
    · exact fun heq => heq ▸ hboth.sorted
    · exact fun hsorted => hboth.unique hsorted.sortedWith
  · rw [hthrice, (hthird.sortedWith hsecond).unique hfirst.sorted.sortedWith]

/-- A doubled edge, a loop and neighbours out of order: turned round twice, the graph has its
neighbours in order and so is another graph, and its edges are the same. -/
theorem reversed_twice_unsorted :
    (⟨#[#[3, 1, 1], #[1, 0], #[], #[2, 0]]⟩ : Graph).WellFormed ∧
      (⟨#[#[3, 1, 1], #[1, 0], #[], #[2, 0]]⟩ : Graph).reversed =
        .ok ⟨#[#[1, 3], #[0, 0, 1], #[3], #[0]]⟩ ∧
      ∃ twice, (⟨#[#[1, 3], #[0, 0, 1], #[3], #[0]]⟩ : Graph).reversed = .ok twice ∧
        twice = ⟨#[#[1, 1, 3], #[0, 1], #[], #[0, 2]]⟩ ∧
          twice ≠ ⟨#[#[3, 1, 1], #[1, 0], #[], #[2, 0]]⟩ ∧
        twice.edgeList = (⟨#[#[3, 1, 1], #[1, 0], #[], #[2, 0]]⟩ : Graph).edgeList ∧
          twice.edgeCount = 7 ∧
        twice.reversed = .ok ⟨#[#[1, 3], #[0, 0, 1], #[3], #[0]]⟩ := by
  have hg : (⟨#[#[3, 1, 1], #[1, 0], #[], #[2, 0]]⟩ : Graph).WellFormed := by decide
  have hunsorted : ¬ (⟨#[#[3, 1, 1], #[1, 0], #[], #[2, 0]]⟩ : Graph).SortedNeighbors := by decide
  have hrun : (⟨#[#[3, 1, 1], #[1, 0], #[], #[2, 0]]⟩ : Graph).reversed =
      .ok ⟨#[#[1, 3], #[0, 0, 1], #[3], #[0]]⟩ := by rfl
  obtain ⟨turned, twice, hturned, htwice, -, -, -, -, -, hedges, hcount, hiff, hback⟩ :=
    reversed_twice _ hg
  rw [hrun] at hturned
  cases hturned
  refine ⟨hg, hrun, twice, htwice, ?_, fun heq => hunsorted (hiff.1 heq), hedges, hcount, hback⟩
  have hagain : (⟨#[#[1, 3], #[0, 0, 1], #[3], #[0]]⟩ : Graph).reversed =
      .ok ⟨#[#[1, 1, 3], #[0, 1], #[], #[0, 2]]⟩ := by rfl
  exact Except.ok.inj (htwice.symm.trans hagain)

end StrongComponents.Graph
