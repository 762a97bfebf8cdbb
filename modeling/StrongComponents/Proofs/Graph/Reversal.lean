import StrongComponents.Graph.Reachability

/-!
# Turning the edges of a graph round

On a well-formed graph `reversed` succeeds, and the sources of each vertex are listed in the order
of the edges (`exists_reversed`). Hence the edge relation is turned round (`edge_of_reversed`).
-/

set_option autoImplicit false

namespace StrongComponents.Graph

/-- The sources of the listed edges into a vertex, in order. -/
def sourcesInto (v : Nat) (edges : List (Nat × Nat)) : List Nat :=
  (edges.filter (·.2 == v)).map (·.1)

theorem mem_sourcesInto {u v : Nat} {edges : List (Nat × Nat)} :
    u ∈ sourcesInto v edges ↔ (u, v) ∈ edges := by
  simp [sourcesInto]

variable {g r : Graph} {u v : Nat}

/-- The list of edges holds the edges. -/
theorem mem_edges : (u, v) ∈ g.edges ↔ g.Edge u v := by
  simp only [edges, List.mem_flatMap, List.mem_map, Prod.exists, Prod.mk.injEq, Edge]
  constructor
  · rintro ⟨targets, source, hsource, target, htarget, rfl, rfl⟩
    have hu : g.adjacency[source]? = some targets := by
      simpa using List.mk_mem_zipIdx_iff_getElem?.1 hsource
    exact ⟨targets, hu, Array.mem_toList_iff.1 htarget⟩
  · rintro ⟨targets, hu, hv⟩
    refine ⟨targets, u, List.mk_mem_zipIdx_iff_getElem?.2 (by simpa using hu), v, ?_, rfl, rfl⟩
    exact Array.mem_toList_iff.2 hv

/-- Counting the entries of some neighbour lists counts the edges that start there. -/
theorem length_edgesFrom (lists : List (Array Nat)) :
    ∀ v count, lists.foldl (fun count targets => count + targets.size) count =
      count + ((lists.zipIdx v).flatMap fun p => p.1.toList.map (p.2, ·)).length := by
  induction lists with
  | nil => exact fun _ _ => rfl
  | cons targets lists ih =>
      intro v count
      rw [List.zipIdx_cons, List.flatMap_cons, List.length_append, List.length_map,
        Array.length_toList, List.foldl_cons, ih (v + 1), Nat.add_assoc]

/-- The list of edges has as many entries as are counted. -/
theorem edgeCount_eq_length (g : Graph) : g.edgeCount = g.edges.length := by
  rw [edgeCount, ← Array.foldl_toList, length_edgesFrom _ 0, Nat.zero_add]
  rfl

/-- Attaching an edge adds its target at the end of the neighbour list of its source, and changes no
other. -/
theorem attach_eq_ok {source : Nat} (target : Nat) (h : source < g.vertexCount) :
    ∃ g', g.attach source target = .ok g' ∧ g'.vertexCount = g.vertexCount ∧
      ∀ v, g'.adjacency[v]? =
        if source = v then g.adjacency[v]?.map (·.push target) else g.adjacency[v]? := by
  refine ⟨⟨g.adjacency.modify source (·.push target)⟩, by simp [attach, h], ?_, ?_⟩
  · simp [vertexCount]
  · intro v
    exact Array.getElem?_modify

/-- Attaching the edges of a list turned round adds to each vertex the sources of the edges into
it. -/
theorem foldlM_attach (es : List (Nat × Nat)) :
    ∀ r : Graph, (∀ e ∈ es, e.2 < r.vertexCount) →
      ∃ r', es.foldlM (fun r e => r.attach e.2 e.1) r = .ok r' ∧ r'.vertexCount = r.vertexCount ∧
        ∀ v, r'.adjacency[v]? = r.adjacency[v]?.map (· ++ (sourcesInto v es).toArray) := by
  induction es with
  | nil =>
      intro r _
      refine ⟨r, rfl, rfl, ?_⟩
      intro v
      simp [sourcesInto]
  | cons e es ih =>
      intro r hbound
      obtain ⟨r₁, hattach, hcount₁, hadj₁⟩ := attach_eq_ok e.1 (hbound e List.mem_cons_self)
      have hbound₁ : ∀ e' ∈ es, e'.2 < r₁.vertexCount := by
        intro e' he'
        rw [hcount₁]
        exact hbound e' (List.mem_cons_of_mem _ he')
      obtain ⟨r₂, hfold, hcount₂, hadj₂⟩ := ih r₁ hbound₁
      refine ⟨r₂, ?_, hcount₂.trans hcount₁, ?_⟩
      · rw [List.foldlM_cons, hattach]
        exact hfold
      · intro v
        rw [hadj₂, hadj₁]
        by_cases hv : e.2 = v
        · cases r.adjacency[v]? <;> simp [hv, sourcesInto]
        · cases r.adjacency[v]? <;> simp [hv, sourcesInto]

/-- A well-formed graph can be turned round: each vertex gets the sources of the edges into it,
in the order of the edges. -/
theorem exists_reversed (hg : g.WellFormed) :
    ∃ r, g.reversed = .ok r ∧ r.vertexCount = g.vertexCount ∧
      ∀ v < g.vertexCount, r.adjacency[v]? = some (sourcesInto v g.edges).toArray := by
  have hempty : (edgeless g.vertexCount).vertexCount = g.vertexCount := by
    simp [edgeless, vertexCount]
  have hbound : ∀ e ∈ g.edges, e.2 < (edgeless g.vertexCount).vertexCount := by
    intro e he
    rw [hempty]
    exact (mem_edges.1 he).target_lt hg
  obtain ⟨r, hfold, hcount, hadj⟩ := foldlM_attach g.edges (edgeless g.vertexCount) hbound
  refine ⟨r, hfold, hcount.trans hempty, ?_⟩
  intro v hv
  rw [hadj]
  simp [edgeless, hv]

/-- The edges of the graph turned round are the edges turned round. -/
theorem edge_of_reversed (hg : g.WellFormed) (h : g.reversed = .ok r) :
    r.Edge v u ↔ g.Edge u v := by
  obtain ⟨r', hr', hcount, hadj⟩ := exists_reversed hg
  rw [h] at hr'
  cases hr'
  constructor
  · intro he
    have hv : v < g.vertexCount := hcount ▸ he.source_lt
    obtain ⟨sources, hsources, hu⟩ := he
    rw [hadj v hv] at hsources
    cases hsources
    exact mem_edges.1 (mem_sourcesInto.1 (by simpa using hu))
  · intro he
    refine ⟨_, hadj v (he.target_lt hg), ?_⟩
    simpa using mem_sourcesInto.2 (mem_edges.2 he)

/-- The graph turned round names existing vertices only. -/
theorem wellFormed_of_reversed (hg : g.WellFormed) (h : g.reversed = .ok r) : r.WellFormed := by
  obtain ⟨r', hr', hcount, -⟩ := exists_reversed hg
  rw [h] at hr'
  cases hr'
  intro targets htargets u hu
  obtain ⟨v, hv⟩ := Array.mem_iff_getElem?.1 htargets
  have he : r.Edge v u := ⟨targets, hv, hu⟩
  rw [hcount]
  exact ((edge_of_reversed hg h).1 he).source_lt

end StrongComponents.Graph
