import StrongComponents.Proofs.Report.Aggregation
import Mathlib.Data.List.Permutation

/-!
# Reports describe their graphs

`Report.Describes` says what a report on a labelled graph has to say, in terms of texts, of walks
and of cycles, and without the passes, the numbers of components or the ranking: every label stands
in one component, two labels stand together iff their vertices are mutually reachable, and so on for
order, sizes, leaders and counts. Every report that is computed, by any strategy, describes its
graph (`compute_describes`).
-/

set_option autoImplicit false

namespace StrongComponents

/-- Two texts stand in one component of a report. -/
def Report.Together (r : Report) (a b : String) : Prop := ∃ c ∈ r.components, a ∈ c ∧ b ∈ c

/-- A report says of a graph what is the case. -/
structure Report.Describes {V : Type} [BEq V] [Hashable V] [Label V] (r : Report)
    (g : LabeledGraph V) : Prop where
  nodup_texts : g.texts.Nodup
  /-- The text of every label stands in one component, once, and nothing else does. -/
  covers : r.components.flatten.Perm g.texts
  nonempty : [] ∉ r.components
  /-- Labels stand together iff there are walks between their vertices both ways. -/
  together_iff : ∀ a ∈ g.texts, ∀ b ∈ g.texts,
    r.Together a b ↔ g.graph.MutuallyReachable (g.vertexOf a) (g.vertexOf b)
  /-- Larger components come first, and of one size the one with the smallest vertex. -/
  ordered : r.components.Pairwise fun c c' =>
    c'.length < c.length ∨ c'.length = c.length ∧ ∃ a ∈ c, ∀ b ∈ c', g.vertexOf a < g.vertexOf b
  /-- Members are listed by ascending vertices. -/
  ascending : ∀ c ∈ r.components, (c.map g.vertexOf).Pairwise (· < ·)
  sizes_eq : r.sizes = r.components.map List.length
  /-- Exactly the labels have leaders. -/
  mem_leaders : ∀ a, a ∈ r.leaders ↔ a ∈ g.texts
  leader_together : ∀ a l, r.leaders[a]? = some l → r.Together a l
  leader_eq_iff : ∀ a ∈ g.texts, ∀ b ∈ g.texts, r.leaders[a]? = r.leaders[b]? ↔ r.Together a b
  stats_eq : r.stats =
    { vertices := g.labels.size
      edges := g.graph.edges.length
      components := r.sizes.length
      singletonComponents := r.sizes.count 1
      cyclicComponents := r.components.countP fun c => g.graph.HoldsCycle (c.map g.vertexOf)
      largestComponent := r.sizes.max?.getD 0 }

/-- Every label has a leader. -/
theorem Report.Describes.exists_leader {V : Type} [BEq V] [Hashable V] [Label V] {r : Report}
    {g : LabeledGraph V} (hr : r.Describes g) {a : String} (ha : a ∈ g.texts) :
    ∃ l, r.leaders[a]? = some l :=
  ⟨_, Std.TreeMap.getElem?_eq_some_getElem ((hr.mem_leaders a).2 ha)⟩

namespace Computation

variable {V : Type} [BEq V] [Hashable V] [Label V] {g : LabeledGraph V} {d : Decomposition}

/-- A component of the report is a component of the decomposition by texts. -/
theorem mem_components_reportOf {c : List String} :
    c ∈ (reportOf g d).components ↔ ∃ members ∈ d.components, c = members.toList.map g.textOf := by
  simp only [components_reportOf, List.mem_map, (ranked_perm d).mem_iff, Array.mem_toList_iff,
    eq_comm]

theorem covers_reportOf (hg : g.Consistent) (hd : g.graph.Divided d) :
    (reportOf g d).components.flatten.Perm g.texts := by
  -- Ranking and naming neither add nor lose a member.
  have hvertices : ((ranked d).flatMap Array.toList).Perm (List.range g.graph.vertexCount) :=
    ((ranked_perm d).flatMap_right _).trans hd.perm
  have hflatten : (reportOf g d).components.flatten =
      ((ranked d).flatMap Array.toList).map g.textOf := by
    rw [List.map_flatMap, List.flatMap_def]
    rfl
  rw [hflatten, hg.texts_eq_map]
  exact hvertices.map g.textOf

theorem sizes_reportOf : (reportOf g d).sizes = (reportOf g d).components.map List.length := by
  rw [components_reportOf, List.map_map]
  apply List.map_congr_left
  intro c _
  simp

/-- Sizes do not increase where larger components come first. -/
theorem pairwise_sizes_of_ordered {components : List (List String)}
    {first : List String → List String → Prop}
    (h : components.Pairwise fun c c' => c'.length < c.length ∨ c'.length = c.length ∧ first c c') :
    (components.map List.length).Pairwise (· ≥ ·) := by
  rw [List.pairwise_map]
  apply h.imp
  intro c c' hsize
  omega

/-- The first of some sizes that do not increase is the largest. -/
theorem head?_eq_max?_of_pairwise {sizes : List Nat} (h : sizes.Pairwise (· ≥ ·)) :
    sizes.head? = sizes.max? := by
  cases sizes with
  | nil => rfl
  | cons first rest =>
      rw [List.head?_cons, eq_comm, List.max?_eq_some_iff]
      refine ⟨List.mem_cons_self, ?_⟩
      intro size hsize
      rcases List.mem_cons.1 hsize with rfl | hrest
      · exact Nat.le_refl _
      · exact (List.pairwise_cons.1 h).1 size hrest

/-- Exactly the labels are named, each once. -/
theorem map_fst_namedLeaders (hg : g.Consistent) (hd : g.graph.Divided d) :
    (namedLeaders g d).map Prod.fst = g.texts := by
  rw [hg.texts_eq_map, ← hd.leader_size, namedLeaders, List.map_map]
  apply List.ext_getElem
  · simp
  · intro v _ _
    simp

theorem mem_leaders_reportOf (hg : g.Consistent) (hd : g.graph.Divided d) (a : String) :
    a ∈ (reportOf g d).leaders ↔ a ∈ g.texts := by
  rw [leaders_reportOf, Std.TreeMap.mem_ofList, map_fst_namedLeaders hg hd, List.contains_iff_mem]

section Lawful

variable [EquivBEq V] [LawfulLabel V]

/-- The text of a vertex is a member by text iff the vertex is a member. -/
theorem textOf_mem_map_iff (hg : g.Consistent) (hd : g.graph.Divided d) {members : Array Nat}
    (hmembers : members ∈ d.components) {v : Nat} (hv : v < g.graph.vertexCount) :
    g.textOf v ∈ members.toList.map g.textOf ↔ v ∈ members := by
  rw [List.mem_map]
  constructor
  · rintro ⟨u, hu, htext⟩
    rw [Array.mem_toList_iff] at hu
    rwa [← (hg.textOf_inj (hd.lt_of_mem hmembers hu) hv).1 htext]
  · exact fun hmem => ⟨v, Array.mem_toList_iff.2 hmem, rfl⟩

/-- Texts stand together iff their vertices are mutually reachable. -/
theorem together_textOf_iff (hg : g.Consistent) (hd : g.graph.Divided d) {u v : Nat}
    (hu : u < g.graph.vertexCount) (hv : v < g.graph.vertexCount) :
    (reportOf g d).Together (g.textOf u) (g.textOf v) ↔ g.graph.MutuallyReachable u v := by
  constructor
  · rintro ⟨c, hc, huc, hvc⟩
    obtain ⟨members, hmembers, rfl⟩ := mem_components_reportOf.1 hc
    rw [textOf_mem_map_iff hg hd hmembers hu] at huc
    rw [textOf_mem_map_iff hg hd hmembers hv] at hvc
    exact (hd.mem_iff members hmembers u huc v).1 hvc
  · intro huv
    obtain ⟨members, hmembers, hmem⟩ := hd.mem_flatMap_iff.2 hu
    refine ⟨_, mem_components_reportOf.2 ⟨members, hmembers, rfl⟩, ?_, ?_⟩
    · exact (textOf_mem_map_iff hg hd hmembers hu).2 hmem
    · exact (textOf_mem_map_iff hg hd hmembers hv).2 ((hd.mem_iff members hmembers u hmem v).2 huv)

/-- Turned back into vertices, the members of a component are those of the decomposition. -/
theorem map_vertexOf_map_textOf (hg : g.Consistent) (hd : g.graph.Divided d) {members : Array Nat}
    (hmembers : members ∈ d.components) :
    (members.toList.map g.textOf).map g.vertexOf = members.toList := by
  rw [List.map_map]
  conv_rhs => rw [← List.map_id members.toList]
  apply List.map_congr_left
  intro v hv
  exact hg.vertexOf_textOf (hd.lt_of_mem hmembers (Array.mem_toList_iff.1 hv))

theorem ordered_reportOf (hg : g.Consistent) (hd : g.graph.Divided d) :
    (reportOf g d).components.Pairwise fun c c' =>
      c'.length < c.length ∨ c'.length = c.length ∧
        ∃ a ∈ c, ∀ b ∈ c', g.vertexOf a < g.vertexOf b := by
  rw [components_reportOf, List.pairwise_map]
  apply (ranked_pairwise hd).imp_of_mem
  intro c c' hc hc' h
  have hmem : c ∈ d.components := Array.mem_toList_iff.1 ((ranked_perm d).mem_iff.1 hc)
  have hmem' : c' ∈ d.components := Array.mem_toList_iff.1 ((ranked_perm d).mem_iff.1 hc')
  simp only [List.length_map, Array.length_toList]
  rcases h with hlt | ⟨heq, u, hu, hfirst⟩
  · exact .inl hlt
  · refine .inr ⟨heq, g.textOf u, List.mem_map_of_mem (Array.mem_toList_iff.2 hu), ?_⟩
    intro b hb
    obtain ⟨v, hv, rfl⟩ := List.mem_map.1 hb
    rw [Array.mem_toList_iff] at hv
    rw [hg.vertexOf_textOf (hd.lt_of_mem hmem hu), hg.vertexOf_textOf (hd.lt_of_mem hmem' hv)]
    exact hfirst v hv

/-- The components that are counted as cyclic are those whose vertices hold a cycle. -/
theorem cyclicCount_eq (hg : g.Consistent) (hd : g.graph.Divided d) :
    d.cyclicCount = (reportOf g d).components.countP fun c =>
      g.graph.HoldsCycle (c.map g.vertexOf) := by
  have hmarks : d.cyclicCount = d.components.toList.countP fun c =>
      g.graph.HoldsCycle c.toList := by
    rw [Decomposition.cyclicCount, ← Array.count_toList, hd.cyclic, List.count_eq_countP,
      List.countP_map]
    apply List.countP_congr
    intro c _
    simp
  rw [hmarks, ← (ranked_perm d).countP_eq]
  rw [components_reportOf, List.countP_map]
  apply List.countP_congr
  intro c hc
  have hmem : c ∈ d.components := Array.mem_toList_iff.1 ((ranked_perm d).mem_iff.1 hc)
  simp only [Function.comp_apply, map_vertexOf_map_textOf hg hd hmem]

/-! ### Leaders by texts -/

/-- The leader of a text is the text of the leader. -/
theorem getElem?_leaders_textOf (hg : g.Consistent) (hd : g.graph.Divided d) {v : Nat}
    (hv : v < g.graph.vertexCount) :
    (reportOf g d).leaders[g.textOf v]? = d.leader[v]?.map g.textOf := by
  obtain ⟨c, hc, hvc⟩ := hd.mem_flatMap_iff.2 hv
  obtain ⟨l, -, hl⟩ := hd.leader_mem c hc v hvc
  have hnamed : (g.textOf v, g.textOf l) ∈ namedLeaders g d := by
    apply List.mem_map.2
    exact ⟨(l, v), List.mem_zipIdx_iff_getElem?.2 (by simpa using hl), rfl⟩
  -- No text is named twice, so the entry of a text is the one it is listed with.
  have hdistinct : (namedLeaders g d).Pairwise fun p q => ¬compare p.1 q.1 = .eq := by
    have hnodup := hg.nodup_texts
    rw [← map_fst_namedLeaders hg hd, List.Nodup, List.pairwise_map] at hnodup
    exact hnodup.imp fun hne heq => hne (Std.compare_eq_iff_eq.1 heq)
  rw [hl]
  exact Std.TreeMap.getElem?_ofList_of_mem Std.compare_self hdistinct hnamed

/-- Leaders of texts are equal iff the texts stand together. -/
theorem leaders_textOf_eq_iff (hg : g.Consistent) (hd : g.graph.Divided d) {u v : Nat}
    (hu : u < g.graph.vertexCount) (hv : v < g.graph.vertexCount) :
    (reportOf g d).leaders[g.textOf u]? = (reportOf g d).leaders[g.textOf v]? ↔
      (reportOf g d).Together (g.textOf u) (g.textOf v) := by
  rw [together_textOf_iff hg hd hu hv, ← hd.leader_eq_iff u hu v hv,
    getElem?_leaders_textOf hg hd hu, getElem?_leaders_textOf hg hd hv]
  -- Both leaders are vertices, and texts tell vertices apart.
  obtain ⟨c, hc, huc⟩ := hd.mem_flatMap_iff.2 hu
  obtain ⟨l, hlc, hl⟩ := hd.leader_mem c hc u huc
  obtain ⟨c', hc', hvc⟩ := hd.mem_flatMap_iff.2 hv
  obtain ⟨l', hlc', hl'⟩ := hd.leader_mem c' hc' v hvc
  simp only [hl, hl', Option.map_some, Option.some.injEq]
  exact hg.textOf_inj (hd.lt_of_mem hc hlc) (hd.lt_of_mem hc' hlc')

/-- The leader of a text stands together with it. -/
theorem together_of_leader (hg : g.Consistent) (hd : g.graph.Divided d) {a l : String}
    (h : (reportOf g d).leaders[a]? = some l) : (reportOf g d).Together a l := by
  -- A text with an entry belongs to a label, and so to a vertex.
  have ha : a ∈ g.texts := by
    rw [← mem_leaders_reportOf hg hd]
    exact Std.TreeMap.mem_iff_isSome_getElem?.2 (by rw [h]; rfl)
  have hv := hg.vertexOf_lt ha
  rw [← LabeledGraph.Consistent.textOf_vertexOf ha] at h ⊢
  obtain ⟨c, hc, hvc⟩ := hd.mem_flatMap_iff.2 hv
  obtain ⟨m, hmc, hm⟩ := hd.leader_mem c hc _ hvc
  rw [getElem?_leaders_textOf hg hd hv, hm] at h
  cases h
  rw [together_textOf_iff hg hd hv (hd.lt_of_mem hc hmc)]
  exact (hd.mem_iff c hc _ hvc m).1 hmc

/-- The report that a decomposition amounts to describes the graph. -/
theorem describes_reportOf (hg : g.Consistent) (hd : g.graph.Divided d) :
    (reportOf g d).Describes g where
  nodup_texts := hg.nodup_texts
  covers := covers_reportOf hg hd
  nonempty := by
    intro hempty
    obtain ⟨members, hmembers, hnil⟩ := mem_components_reportOf.1 hempty
    rw [eq_comm, List.map_eq_nil_iff, Array.toList_eq_nil_iff] at hnil
    exact hd.nonempty members hmembers hnil
  together_iff := by
    intro a ha b hb
    rw [← together_textOf_iff hg hd (hg.vertexOf_lt ha) (hg.vertexOf_lt hb),
      LabeledGraph.Consistent.textOf_vertexOf ha, LabeledGraph.Consistent.textOf_vertexOf hb]
  ordered := ordered_reportOf hg hd
  ascending := by
    intro c hc
    obtain ⟨members, hmembers, rfl⟩ := mem_components_reportOf.1 hc
    rw [map_vertexOf_map_textOf hg hd hmembers]
    exact hd.ascending members hmembers
  sizes_eq := sizes_reportOf
  mem_leaders := mem_leaders_reportOf hg hd
  leader_together := fun _ _ => together_of_leader hg hd
  leader_eq_iff := by
    intro a ha b hb
    have h := leaders_textOf_eq_iff hg hd (hg.vertexOf_lt ha) (hg.vertexOf_lt hb)
    rwa [LabeledGraph.Consistent.textOf_vertexOf ha, LabeledGraph.Consistent.textOf_vertexOf hb]
      at h
  stats_eq := by
    have hsizes := pairwise_sizes_of_ordered (ordered_reportOf hg hd)
    rw [← sizes_reportOf] at hsizes
    have hlargest := head?_eq_max?_of_pairwise hsizes
    have hvertices : g.vertexCount = g.labels.size := hg.vertexCount_eq
    have hedges : g.edgeCount = g.graph.edges.length := g.graph.edgeCount_eq_length
    rw [← hlargest, ← cyclicCount_eq hg hd, ← hvertices, ← hedges]
    rfl

end Lawful

end Computation

namespace LabeledGraph

variable {V : Type} [BEq V] [Hashable V] [EquivBEq V] [LawfulHashable V] [Label V]

/-- A graph that can be decomposed can be reported on. -/
theorem Built.compute_of_decompose {g : LabeledGraph V} (hg : g.Built) {supply : Stack.Supply}
    {strategy : Strategy} {d : Decomposition}
    (hdetected : g.graph.decompose supply strategy = .ok d) :
    (g.compute (·.decompose supply strategy)).2 = .ok (Computation.reportOf g d) :=
  compute_of_decomposed hg.consistent (Graph.divided_of_decompose (.inl hdetected)) hdetected

/-- Every report comes from a decomposition. -/
theorem Built.exists_divided_of_compute {g : LabeledGraph V} (hg : g.Built) {supply : Stack.Supply}
    {strategy : Strategy} {r : Report} (h : (g.compute (·.decompose supply strategy)).2 = .ok r) :
    ∃ d, g.graph.Divided d ∧ r = Computation.reportOf g d := by
  obtain ⟨d, hdetected⟩ := exists_decomposed_of_compute h
  rw [hg.compute_of_decompose hdetected] at h
  exact ⟨d, Graph.divided_of_decompose (.inl hdetected), (Except.ok.inj h).symm⟩

variable [LawfulLabel V]

/-- Every report that is computed describes its graph, whatever the graph was made from
and whatever the strategy. -/
theorem compute_describes (g : LabeledGraph V) (hg : g.Built) (supply : Stack.Supply)
    (strategy : Strategy) (r : Report) (h : (g.compute (·.decompose supply strategy)).2 = .ok r) :
    r.Describes g := by
  obtain ⟨d, hdivided, rfl⟩ := hg.exists_divided_of_compute h
  exact Computation.describes_reportOf hg.consistent hdivided

/-- Integers: two lead to each other, one leads to itself, and the first of all leads to the two. -/
theorem compute_describes_integers :
    ∃ (g : LabeledGraph Int) (r : Report),
      ofEdgeList [(8, -5), (3, -5), (-5, 3), (7, 7), (7, 3)] = .ok g ∧
      (g.compute (·.decompose Stack.ofAddressSpace .iterative)).2 = .ok r ∧ r.Describes g ∧
      r.components = [["-5", "3"], ["8"], ["7"]] ∧
      r.leaders.toList = [("-5", "-5"), ("3", "-5"), ("7", "7"), ("8", "8")] ∧
      r.stats = ⟨4, 5, 3, 2, 2, 2⟩ := by
  have hcomputed :
      (ofEdgeList [((8 : Int), (-5 : Int)), (3, -5), (-5, 3), (7, 7), (7, 3)] >>= fun g =>
      g.graph.decompose Stack.ofAddressSpace .iterative >>= fun d =>
        (Computation.aggregate g d).result.map fun r => (r.components, r.leaders.toList, r.stats)) =
      .ok ([["-5", "3"], ["8"], ["7"]],
        [("-5", "-5"), ("3", "-5"), ("7", "7"), ("8", "8")], ⟨4, 5, 3, 2, 2, 2⟩) := by
    cbv
  obtain ⟨g, hg, hcomputed⟩ := bind_eq_ok_iff.1 hcomputed
  obtain ⟨d, hdetected, hcomputed⟩ := bind_eq_ok_iff.1 hcomputed
  obtain ⟨r, hr, hshown⟩ := map_eq_ok_iff.1 hcomputed
  simp only [Prod.mk.injEq] at hshown
  have hresult : (g.compute (·.decompose Stack.ofAddressSpace .iterative)).2 = .ok r := by
    rw [compute]
    simp only [hdetected, hr]
    rfl
  exact ⟨g, r, hg, hresult, compute_describes g (.ofEdgeList hg) _ .iterative r hresult, hshown⟩

end LabeledGraph

end StrongComponents
