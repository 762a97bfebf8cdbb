import StrongComponents.Proofs.Graph.Multiplicity

/-!
# Building graphs edge by edge

Adding an edge has two outcomes, told apart by its ends alone (`addEdge_cases`): an end that is no
vertex is named, the source before the target, or the neighbour list of the source grows at its end
and nothing else changes (`Appends`). From that follows what `ofEdges` makes of a list of edges, and
that a graph which is kept in place while edges are added to it stays well formed whatever is asked
for. An edge that is refused leaves no trace in it (`foldlM_accepted`).
-/

set_option autoImplicit false

namespace StrongComponents.Graph

/-- The ends of the listed edges as they are read, the source of each before its target. -/
def endpoints (es : List (Nat × Nat)) : List Nat := es.flatMap fun e => [e.1, e.2]

/-- The targets of the listed edges from a vertex, in order. -/
def targetsFrom (u : Nat) (es : List (Nat × Nat)) : List Nat := (es.filter (·.1 == u)).map (·.2)

/-- After is before with one more neighbour at the end of one list. -/
structure Appends (before : Graph) (source target : Nat) (after : Graph) : Prop where
  vertexCount_eq : after.vertexCount = before.vertexCount
  grown : ∃ targets, before.adjacency[source]? = some targets ∧
    after.adjacency[source]? = some (targets.push target)
  others : ∀ u : Nat, u ≠ source → after.adjacency[u]? = before.adjacency[u]?

variable {g after : Graph} {source target v n : Nat} {es : List (Nat × Nat)}

/-! ## One edge -/

theorem find?_ends_eq_none_iff {count : Nat} :
    [source, target].find? (count ≤ ·) = none ↔ source < count ∧ target < count := by
  simp

/-- Adding an edge between vertices succeeds. -/
theorem exists_addEdge (hsource : source < g.vertexCount) (htarget : target < g.vertexCount) :
    ∃ after, g.addEdge source target = .ok after ∧ g.Appends source target after := by
  obtain ⟨after, hattach, hcount, hadjacency⟩ := attach_eq_ok target hsource
  refine ⟨after, by rw [addEdge_eq_attach hsource htarget, hattach], hcount, ?_, ?_⟩
  · refine ⟨g.adjacency[source], Array.getElem?_eq_getElem hsource, ?_⟩
    rw [hadjacency, if_pos rfl, Array.getElem?_eq_getElem hsource]
    rfl
  · intro u hu
    rw [hadjacency, if_neg hu.symm]

/-- Adding an edge fails at the first of its ends that is no vertex. -/
theorem addEdge_of_find (h : [source, target].find? (g.vertexCount ≤ ·) = some v) :
    g.addEdge source target = .error (.vertexOutOfRange v g.vertexCount) := by
  rw [addEdge]
  by_cases hsource : source < g.vertexCount
  · by_cases htarget : target < g.vertexCount
    · rw [find?_ends_eq_none_iff.2 ⟨hsource, htarget⟩] at h
      cases h
    · have hv : v = target := by simpa [hsource, Nat.le_of_not_lt htarget, eq_comm] using h
      rw [if_pos hsource, if_neg htarget, hv]
  · have hv : v = source := by simpa [Nat.le_of_not_lt hsource, eq_comm] using h
    rw [if_neg hsource, hv]

/-- All that adding an edge can do. -/
theorem addEdge_cases (g : Graph) (source target : Nat) :
    (∃ v, [source, target].find? (g.vertexCount ≤ ·) = some v ∧
      g.addEdge source target = .error (.vertexOutOfRange v g.vertexCount)) ∨
    (source < g.vertexCount ∧ target < g.vertexCount ∧
      ∃ after, g.addEdge source target = .ok after ∧ g.Appends source target after) := by
  cases hfind : [source, target].find? (g.vertexCount ≤ ·) with
  | some v => exact .inl ⟨v, rfl, addEdge_of_find hfind⟩
  | none =>
      obtain ⟨hsource, htarget⟩ := find?_ends_eq_none_iff.1 hfind
      exact .inr ⟨hsource, htarget, exists_addEdge hsource htarget⟩

/-- A new neighbour that is a vertex keeps all neighbours in range. -/
theorem Appends.wellFormed (h : g.Appends source target after) (hg : g.WellFormed)
    (htarget : target < g.vertexCount) :
    after.WellFormed := by
  obtain ⟨hcount, ⟨targets, hbefore, hafter⟩, hothers⟩ := h
  intro list hlist v hv
  obtain ⟨u, hu⟩ := Array.mem_iff_getElem?.1 hlist
  rw [hcount]
  by_cases hsource : u = source
  · subst hsource
    rw [hafter, Option.some.injEq] at hu
    subst hu
    rcases Array.mem_push.1 hv with hv | rfl
    · exact hg targets (Array.mem_of_getElem? hbefore) v hv
    · exact htarget
  · rw [hothers u hsource] at hu
    exact hg list (Array.mem_of_getElem? hu) v hv

/-! ## A list of edges -/

theorem endpoints_cons (e : Nat × Nat) (es : List (Nat × Nat)) :
    endpoints (e :: es) = [e.1, e.2] ++ endpoints es := rfl

theorem find?_endpoints_eq_none_iff :
    (endpoints es).find? (n ≤ ·) = none ↔ ∀ e ∈ es, e.1 < n ∧ e.2 < n := by
  simp [endpoints]

/-- Adding edges one by one fails at the first end that is no vertex. -/
theorem foldlM_addEdge_of_find (es : List (Nat × Nat)) :
    ∀ g : Graph, (endpoints es).find? (g.vertexCount ≤ ·) = some v →
      es.foldlM (fun g e => g.addEdge e.1 e.2) g = .error (.vertexOutOfRange v g.vertexCount) := by
  induction es with
  | nil =>
      intro g hfind
      cases hfind
  | cons e es ih =>
      intro g hfind
      rw [endpoints_cons, List.find?_append] at hfind
      rw [List.foldlM_cons]
      rcases addEdge_cases g e.1 e.2 with ⟨w, hends, herror⟩ |
        ⟨hsource, htarget, after, hok, happends⟩
      · rw [hends] at hfind
        cases hfind
        rw [herror]
        rfl
      · -- Both ends are vertices, so the end that is none belongs to a later edge.
        rw [find?_ends_eq_none_iff.2 ⟨hsource, htarget⟩, Option.none_or, ← happends.vertexCount_eq]
          at hfind
        rw [hok, ← happends.vertexCount_eq]
        exact ih after hfind

theorem vertexCount_edgeless (n : Nat) : (edgeless n).vertexCount = n := Array.size_replicate

theorem ofEdges_of_find (h : (endpoints es).find? (n ≤ ·) = some v) :
    ofEdges n es = .error (.vertexOutOfRange v n) := by
  have hrun := foldlM_addEdge_of_find es (edgeless n) (by rwa [vertexCount_edgeless])
  rwa [vertexCount_edgeless] at hrun

theorem exists_ofEdges_iff : (∃ g, ofEdges n es = .ok g) ↔ ∀ e ∈ es, e.1 < n ∧ e.2 < n := by
  constructor
  · rintro ⟨g, hg⟩
    rw [← find?_endpoints_eq_none_iff, Option.eq_none_iff_forall_ne_some]
    intro v hfind
    rw [ofEdges_of_find hfind] at hg
    cases hg
  · intro hbound
    obtain ⟨g, hg, -⟩ := exists_ofEdges hbound
    exact ⟨g, hg⟩

theorem ofEdges_eq_error_iff {cause : GraphError} :
    ofEdges n es = .error cause ↔ ∃ v, (endpoints es).find? (n ≤ ·) = some v ∧
      cause = .vertexOutOfRange v n := by
  constructor
  · intro herror
    cases hfind : (endpoints es).find? (n ≤ ·) with
    | none =>
        obtain ⟨g, hg⟩ := exists_ofEdges_iff.2 (find?_endpoints_eq_none_iff.1 hfind)
        cases herror.symm.trans hg
    | some v => exact ⟨v, rfl, Except.error.inj (herror.symm.trans (ofEdges_of_find hfind))⟩
  · rintro ⟨v, hfind, rfl⟩
    exact ofEdges_of_find hfind

theorem sourcesInto_map_swap (u : Nat) (es : List (Nat × Nat)) :
    sourcesInto u (es.map Prod.swap) = targetsFrom u es := by
  simp [sourcesInto, targetsFrom, List.filter_map, Function.comp_def]

/-- A graph holds the listed edges: in neighbour lists that keep their order, and in
the sorted list of edges. -/
structure Built (g : Graph) (n : Nat) (es : List (Nat × Nat)) : Prop where
  vertexCount_eq : g.vertexCount = n
  wellFormed : g.WellFormed
  neighbors : ∀ u < n, g.adjacency[u]? = some (targetsFrom u es).toArray
  edgeCount_eq : g.edgeCount = es.length
  edgeList_perm : g.edgeList.Perm es
  edgeList_sorted : g.edgeList.Pairwise fun e f => e.1 < f.1 ∨ e.1 = f.1 ∧ e.2 ≤ f.2

theorem built_of_ofEdges (h : ofEdges n es = .ok g) : g.Built n es := by
  have hbound := exists_ofEdges_iff.1 ⟨g, h⟩
  obtain ⟨g', hg', hgathers, hmultiplicity⟩ := exists_ofEdges hbound
  cases h.symm.trans hg'
  have hneighbors : ∀ u < n, g.adjacency[u]? = some (targetsFrom u es).toArray := by
    intro u hu
    rw [hgathers.adjacency u hu, sourcesInto_map_swap]
  -- The graph holds each edge as often as it is listed.
  have hedges : g.edges.Perm es := by
    rw [List.perm_iff_count]
    rintro ⟨u, v⟩
    rw [count_edges, hmultiplicity]
  refine ⟨hgathers.vertexCount_eq, ?_, hneighbors, ?_, (edgeList_perm g).trans hedges, ?_⟩
  · intro targets htargets v hv
    obtain ⟨u, hu⟩ := Array.mem_iff_getElem?.1 htargets
    have hedge : g.Edge u v := ⟨targets, hu, hv⟩
    rw [hgathers.vertexCount_eq]
    exact (hbound (u, v) (hedges.mem_iff.1 (mem_edges.2 hedge))).2
  · rw [edgeCount_eq_length, hedges.length_eq]
  · exact (pairwise_edgeList g).imp edgeLe_iff.1

/-! ## A graph kept in place -/

section Actions

variable {α β : Type} {action : ExceptT GraphError (StateM Graph) α}
  {next : α → ExceptT GraphError (StateM Graph) β}

theorem run_get (g : Graph) :
    (get : ExceptT GraphError (StateM Graph) Graph).run.run g = (.ok g, g) := rfl

/-- What follows an action that succeeds finds the graph that it left. -/
theorem run_bind_of_ok {a : α} (h : action.run.run g = (.ok a, after)) :
    (action >>= next).run.run g = (next a).run.run after := by
  rw [ExceptT.run_bind, StateT.run_bind, h]
  rfl

/-- Nothing is done after an action that fails. -/
theorem run_bind_of_error {cause : GraphError} (h : action.run.run g = (.error cause, after)) :
    (action >>= next).run.run g = (.error cause, after) := by
  rw [ExceptT.run_bind, StateT.run_bind, h]
  rfl

end Actions

theorem requireVertex_of_lt (h : v < g.vertexCount) :
    (requireVertex v).run.run g = (.ok (), g) := by
  rw [requireVertex, run_bind_of_ok (run_get g), if_neg (Nat.not_le.2 h)]
  rfl

theorem requireVertex_of_ge (h : g.vertexCount ≤ v) :
    (requireVertex v).run.run g = (.error (.vertexOutOfRange v g.vertexCount), g) := by
  rw [requireVertex, run_bind_of_ok (run_get g), if_pos h]
  rfl

/-- A call that is refused answers with the error, and nothing was written. -/
theorem call_of_error {cause : GraphError} (h : g.addEdge source target = .error cause) :
    g.call source target = (.error cause, g) := by
  rw [call, addEdgeInPlace]
  by_cases hsource : source < g.vertexCount
  · rw [run_bind_of_ok (requireVertex_of_lt hsource)]
    by_cases htarget : target < g.vertexCount
    · obtain ⟨after, hok, -⟩ := exists_addEdge hsource htarget
      cases h.symm.trans hok
    · rw [addEdge, if_pos hsource, if_neg htarget, Except.error.injEq] at h
      rw [run_bind_of_error (requireVertex_of_ge (Nat.le_of_not_lt htarget)), h]
  · rw [addEdge, if_neg hsource, Except.error.injEq] at h
    rw [run_bind_of_error (requireVertex_of_ge (Nat.le_of_not_lt hsource)), h]

/-- A call that succeeds leaves the graph with the new edge. -/
theorem call_of_ok (h : g.addEdge source target = .ok after) :
    g.call source target = (.ok (), after) := by
  rcases addEdge_cases g source target with ⟨v, -, herror⟩ | ⟨hsource, htarget, -⟩
  · cases h.symm.trans herror
  · rw [addEdge, if_pos hsource, if_pos htarget, Except.ok.injEq] at h
    rw [call, addEdgeInPlace, run_bind_of_ok (requireVertex_of_lt hsource),
      run_bind_of_ok (requireVertex_of_lt htarget), ← h]
    rfl

/-- A call keeps the vertices, and keeps all neighbours in range. -/
theorem call_keeps (g : Graph) (source target : Nat) :
    (g.call source target).2.vertexCount = g.vertexCount ∧
      (g.WellFormed → (g.call source target).2.WellFormed) := by
  rcases addEdge_cases g source target with ⟨v, -, herror⟩ | ⟨-, htarget, after, hok, happends⟩
  · rw [call_of_error herror]
    exact ⟨rfl, id⟩
  · rw [call_of_ok hok]
    exact ⟨happends.vertexCount_eq, fun hg => happends.wellFormed hg htarget⟩

theorem wellFormed_afterCalls (calls : List (Nat × Nat)) :
    ∀ {g : Graph}, g.WellFormed → (g.afterCalls calls).WellFormed := by
  induction calls with
  | nil => exact id
  | cons e calls ih => exact fun hg => ih ((call_keeps _ e.1 e.2).2 hg)

/-- The graph after some calls has the edges of those calls alone that could be added, as
if no other had been made. -/
theorem foldlM_accepted (calls : List (Nat × Nat)) :
    ∀ g : Graph, (calls.filter fun e => e.1 < g.vertexCount ∧ e.2 < g.vertexCount).foldlM
      (fun g e => g.addEdge e.1 e.2) g = .ok (g.afterCalls calls) := by
  induction calls with
  | nil => exact fun _ => rfl
  | cons e calls ih =>
      intro g
      -- No call changes which edges can be added, so one filter serves for all of them.
      have hrest := ih (g.call e.1 e.2).2
      rw [(call_keeps g e.1 e.2).1] at hrest
      rcases addEdge_cases g e.1 e.2 with ⟨v, hfind, herror⟩ | ⟨hsource, htarget, after, hok, -⟩
      · have hout : ¬ (e.1 < g.vertexCount ∧ e.2 < g.vertexCount) := by
          rw [← find?_ends_eq_none_iff, hfind]
          exact nofun
        rw [List.filter_cons_of_neg (by simpa using hout)]
        rw [call_of_error herror] at hrest
        rw [hrest, afterCalls, afterCalls, List.foldl_cons, call_of_error herror]
      · rw [List.filter_cons_of_pos (by simp [hsource, htarget]), List.foldlM_cons, hok]
        rw [call_of_ok hok] at hrest
        show List.foldlM _ after _ = _
        rw [hrest, afterCalls, afterCalls, List.foldl_cons, call_of_ok hok]

/-- A graph can be built from a list of edges iff all ends are vertices, and else the first
end that is none is named, in the order of reading. The graph is well formed, with the
targets of the edges from each vertex in their order; the edges are as many as listed, and
sorted they are the list sorted.

Edges may also be added one by one to a well-formed graph in place. After any calls the next one is
refused and leaves the graph exactly as it was, or it succeeds, keeps all neighbours in range and
changes nothing but the end of one neighbour list. So what is there in the end is what the calls
that succeed would have made alone. -/
theorem building_outcome (n : Nat) (es : List (Nat × Nat)) :
    ((∃ g, ofEdges n es = .ok g) ↔ ∀ e ∈ es, e.1 < n ∧ e.2 < n) ∧
      (∀ cause, ofEdges n es = .error cause ↔
        ∃ v, (endpoints es).find? (n ≤ ·) = some v ∧ cause = .vertexOutOfRange v n) ∧
      (∀ g, ofEdges n es = .ok g → g.Built n es) ∧
      ∀ (g : Graph) (calls : List (Nat × Nat)) (before : Graph), g.WellFormed →
        g.afterCalls calls = before →
        before.WellFormed ∧
        (∀ source target cause, before.addEdge source target = .error cause →
          before.call source target = (.error cause, before)) ∧
        (∀ source target after, before.addEdge source target = .ok after →
          before.call source target = (.ok (), after) ∧ after.WellFormed ∧
            before.Appends source target after) ∧
        (calls.filter fun e => e.1 < g.vertexCount ∧ e.2 < g.vertexCount).foldlM
          (fun g e => g.addEdge e.1 e.2) g = .ok before := by
  refine ⟨exists_ofEdges_iff, fun _ => ofEdges_eq_error_iff, fun _ => built_of_ofEdges, ?_⟩
  rintro g calls before hg rfl
  refine ⟨wellFormed_afterCalls calls hg, fun _ _ _ => call_of_error, ?_, foldlM_accepted calls g⟩
  intro source target after hok
  rcases addEdge_cases (g.afterCalls calls) source target with ⟨v, -, herror⟩ |
    ⟨-, htarget, after', hok', happends⟩
  · cases hok.symm.trans herror
  · cases hok.symm.trans hok'
    exact ⟨call_of_ok hok, happends.wellFormed (wellFormed_afterCalls calls hg) htarget, happends⟩

/-- A doubled edge and a loop; a list whose third end is the first that is no vertex; and four calls
in place, of which only the second succeeds. -/
theorem building_outcome_calls :
    (∃ g, ofEdges 3 [(2, 2), (0, 1), (2, 0), (0, 1)] = .ok g ∧
      g.Built 3 [(2, 2), (0, 1), (2, 0), (0, 1)]) ∧
      ofEdges 3 [(2, 0), (3, 4), (5, 0)] = .error (.vertexOutOfRange 3 3) ∧
      (⟨#[#[1], #[]]⟩ : Graph).WellFormed ∧
      (⟨#[#[1], #[]]⟩ : Graph).afterCalls [(0, 5), (1, 0), (7, 7)] = ⟨#[#[1], #[0]]⟩ ∧
      (⟨#[#[1], #[0]]⟩ : Graph).call 1 2 = (.error (.vertexOutOfRange 2 2), ⟨#[#[1], #[0]]⟩) := by
  obtain ⟨haccepted, -, hbuilt, -⟩ := building_outcome 3 [(2, 2), (0, 1), (2, 0), (0, 1)]
  obtain ⟨-, hrefused, -, hcalls⟩ := building_outcome 3 [(2, 0), (3, 4), (5, 0)]
  obtain ⟨g, hg⟩ := haccepted.2 (by decide)
  have hwell : (⟨#[#[1], #[]]⟩ : Graph).WellFormed := by decide
  have hafter : (⟨#[#[1], #[]]⟩ : Graph).afterCalls [(0, 5), (1, 0), (7, 7)] = ⟨#[#[1], #[0]]⟩ := by
    rfl
  obtain ⟨-, hunchanged, -⟩ := hcalls _ _ _ hwell hafter
  exact ⟨⟨g, hg, hbuilt g hg⟩, (hrefused _).2 ⟨3, by decide, rfl⟩, hwell, hafter,
    hunchanged 1 2 _ rfl⟩

end StrongComponents.Graph
