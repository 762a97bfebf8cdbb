import StrongComponents.Proofs.Labeled.Additions

/-!
# Graphs from descriptions

A description lists vertices with their neighbours, which may be declared further down. It makes a
graph iff no vertex is declared twice and every neighbour is declared. All declarations are looked
at before the first neighbour, so a vertex that is declared twice is what the error names, whatever
else is wrong; otherwise it names the first edge that leads nowhere. `ofAdjacency_outcome` says
this, and that nothing is lost or reordered in the graph.
-/

set_option autoImplicit false

namespace StrongComponents.LabeledGraph

section Lists

variable {V : Type} {entries : List (V × List V)}

/-- The edges of a description, by the order of the entries and then by that of the neighbours. -/
def listedEdges (entries : List (V × List V)) :
    List (V × V) := entries.flatMap fun entry => entry.2.map (entry.1, ·)

theorem mem_listedEdges {v w : V} :
    (v, w) ∈ listedEdges entries ↔ ∃ entry ∈ entries, entry.1 = v ∧ w ∈ entry.2 := by
  simp only [listedEdges, List.mem_flatMap, List.mem_map, Prod.mk.injEq]
  constructor
  · rintro ⟨entry, hentry, _, hw, hv, rfl⟩
    exact ⟨entry, hentry, hv, hw⟩
  · rintro ⟨entry, hentry, hv, hw⟩
    exact ⟨entry, hentry, w, hw, hv, rfl⟩

/-- The additions of a description are its vertices, followed by its edges. -/
theorem descriptionAdditions_eq (entries : List (V × List V)) :
    descriptionAdditions entries =
      entries.map (fun entry => .vertex entry.1) ++ (listedEdges entries).map fun edge =>
        .edge edge.1 edge.2 := by
  simp [descriptionAdditions, listedEdges, List.map_flatMap, Function.comp_def,
    ← List.map_eq_flatMap]

theorem filterMap_edge?_descriptionAdditions (entries : List (V × List V)) :
    (descriptionAdditions entries).filterMap Addition.edge? = listedEdges entries := by
  simp [descriptionAdditions_eq, List.filterMap_map, Function.comp_def, Addition.edge?]

variable [BEq V]

/-- No vertex is declared twice. -/
def DistinctKeys (entries : List (V × List V)) :
    Prop := (entries.map Prod.fst).Pairwise fun a b => (a == b) = false

/-- Whether a label is declared. -/
def declares (entries : List (V × List V)) (v : V) : Bool := entries.any (·.1 == v)

/-- The first entry whose vertex has been declared before. -/
def FirstRepeated (entries : List (V × List V)) (entry : V × List V) : Prop :=
  ∃ before after, entries = before ++ entry :: after ∧ DistinctKeys before ∧
    declares before entry.1 = true

theorem distinctKeys_concat {entry : V × List V} :
    DistinctKeys (entries ++ [entry]) ↔ DistinctKeys entries ∧
      declares entries entry.1 = false := by
  rw [DistinctKeys, List.map_append, List.map_singleton, List.pairwise_append]
  simp [DistinctKeys, declares]

/-- Where a vertex is declared twice there is a first one. -/
theorem exists_firstRepeated (h : ¬ DistinctKeys entries) :
    ∃ entry, FirstRepeated entries entry := by
  induction entries using List.reverseRecOn with
  | nil => exact absurd List.Pairwise.nil h
  | append_singleton entries last ih =>
      by_cases hentries : DistinctKeys entries
      · -- The last entry is the first to repeat a vertex.
        have hlast : declares entries last.1 = true := by
          rw [distinctKeys_concat] at h
          exact Bool.of_not_eq_false fun hnew => h ⟨hentries, hnew⟩
        exact ⟨last, entries, [], rfl, hentries, hlast⟩
      · obtain ⟨entry, before, after, rfl, hbefore, hentry⟩ := ih hentries
        exact ⟨entry, before, after ++ [last], by simp, hbefore, hentry⟩

/-- Where an edge leads nowhere there is a first one that does. -/
theorem exists_firstDangling (h : ∃ edge ∈ listedEdges entries, declares entries edge.2 = false) :
    ∃ edge, (listedEdges entries).find? (fun edge => !declares entries edge.2) = some edge := by
  obtain ⟨edge, hedge, hdangling⟩ := h
  rw [← Option.isSome_iff_exists, List.find?_isSome]
  refine ⟨edge, hedge, ?_⟩
  rw [hdangling]
  rfl

theorem declares_of_mem [ReflBEq V] {entry : V × List V} (h : entry ∈ entries) :
    declares entries entry.1 = true := List.any_eq_true.2 ⟨entry, h, BEq.rfl⟩

theorem declares_of_mem_listedEdges [ReflBEq V] {edge : V × V} (h : edge ∈ listedEdges entries) :
    declares entries edge.1 = true := by
  obtain ⟨entry, hentry, heq, -⟩ := mem_listedEdges.1 h
  rw [← heq]
  exact declares_of_mem hentry

/-- Where no vertex is declared twice, the listed edges from a vertex are those of its own entry. -/
theorem targetsFrom_listedEdges [EquivBEq V] (hkeys : DistinctKeys entries) {entry : V × List V}
    (hentry : entry ∈ entries) : targetsFrom entry.1 (listedEdges entries) = entry.2 := by
  have hown : ∀ e : V × List V, targetsFrom entry.1 (e.2.map (e.1, ·)) = if e.1 == entry.1 then e.2
      else [] := by
    intro e
    cases he : e.1 == entry.1 with
    | true => simp [targetsFrom, List.filter_map, Function.comp_def, he]
    | false => simp [targetsFrom, List.filter_map, Function.comp_def, he]
  have hparts : targetsFrom entry.1 (listedEdges entries) =
      entries.flatMap fun e => if e.1 == entry.1 then e.2 else [] := by
    rw [targetsFrom, listedEdges, List.filter_flatMap, List.map_flatMap]
    simp only [← hown]
    rfl
  have hnone : ∀ part : List (V × List V), (∀ e ∈ part, (e.1 == entry.1) = false) →
      (part.flatMap fun e => if e.1 == entry.1 then e.2 else []) = [] := by
    intro part hpart
    rw [List.flatMap_eq_nil_iff]
    intro e he
    simp [hpart e he]
  obtain ⟨before, after, rfl⟩ := List.append_of_mem hentry
  rw [DistinctKeys, List.map_append, List.map_cons, List.pairwise_append, List.pairwise_cons]
    at hkeys
  obtain ⟨-, ⟨hafter, -⟩, hbefore⟩ := hkeys
  rw [hparts, List.flatMap_append, List.flatMap_cons, hnone before, hnone after]
  · simp
  · intro e he
    rw [BEq.comm]
    exact hafter e.1 (List.mem_map_of_mem he)
  · exact fun e he => hbefore e.1 (List.mem_map_of_mem he) entry.1 List.mem_cons_self

end Lists

variable {V : Type} [BEq V] [Hashable V] [Label V]

/-! ## The two loops -/

/-- Adds one listed edge, with a look-up of its source of its own. -/
def linkEdge (g : LabeledGraph V) (edge : V × V) : Except GraphError (LabeledGraph V) :=
  g.number edge.1 >>= fun i => g.link edge.1 i edge.2

theorem linkEdge_of_found {g : LabeledGraph V} {edge : V × V} {i : Nat}
    (hi : g.indexOf? edge.1 = some i) : g.linkEdge edge = g.link edge.1 i edge.2 := by
  rw [linkEdge, (number_eq_ok_iff g).2 hi]
  rfl

/-- Linking changes a neighbour list and nothing else. -/
theorem tables_of_linkEdge {g h : LabeledGraph V} {edge : V × V} (hok : g.linkEdge edge = .ok h) :
    h.labels = g.labels ∧ h.index = g.index := by
  obtain ⟨i, -, hlink⟩ := bind_eq_ok_iff.1 hok
  obtain ⟨j, -, hconnect⟩ := link_eq_ok_iff.1 hlink
  obtain ⟨-, rfl⟩ := (connect_eq_ok_iff g).1 hconnect
  exact ⟨rfl, rfl⟩

theorem tables_of_foldlM_linkEdge (edges : List (V × V)) : ∀ {g h : LabeledGraph V},
    edges.foldlM linkEdge g = .ok h → h.labels = g.labels ∧ h.index = g.index := by
  induction edges with
  | nil =>
      rintro g _ ⟨⟩
      exact ⟨rfl, rfl⟩
  | cons edge edges ih =>
      intro g h hok
      obtain ⟨next, hnext, hrest⟩ := bind_eq_ok_iff.1 hok
      obtain ⟨hlabels, hindex⟩ := tables_of_linkEdge hnext
      obtain ⟨hlabels', hindex'⟩ := ih hrest
      exact ⟨hlabels'.trans hlabels, hindex'.trans hindex⟩

/-- The source of an entry keeps its number while the edges from it are added, so it could as well
be looked up for each of them. -/
theorem foldlM_link_eq {source : V} {i : Nat} (targets : List V) :
    ∀ {g : LabeledGraph V}, g.indexOf? source = some i →
      targets.foldlM (fun g w => g.link source i w) g =
        (targets.map (source, ·)).foldlM linkEdge g := by
  induction targets with
  | nil => exact fun _ => rfl
  | cons target targets ih =>
      intro g hi
      have hlink : g.linkEdge (source, target) = g.link source i target := linkEdge_of_found hi
      rw [List.map_cons, List.foldlM_cons, List.foldlM_cons, hlink]
      cases hnext : g.link source i target with
      | error e => rfl
      | ok next =>
          apply ih
          rw [indexOf?, (tables_of_linkEdge (hlink.trans hnext)).2]
          exact hi

/-- Entry by entry, edges are added as they are listed. -/
theorem foldlM_linkEntry_eq (entries : List (V × List V)) : ∀ {g : LabeledGraph V},
    (∀ entry ∈ entries, ∃ i, g.indexOf? entry.1 = some i) →
      entries.foldlM linkEntry g = (listedEdges entries).foldlM linkEdge g := by
  induction entries with
  | nil => exact fun _ => rfl
  | cons entry entries ih =>
      intro g hfound
      obtain ⟨i, hi⟩ := hfound entry List.mem_cons_self
      have hentry : g.linkEntry entry = (entry.2.map (entry.1, ·)).foldlM linkEdge g := by
        rw [linkEntry, (number_eq_ok_iff g).2 hi]
        exact foldlM_link_eq entry.2 hi
      rw [List.foldlM_cons, listedEdges, List.flatMap_cons, List.foldlM_append, hentry]
      cases hnext : (entry.2.map (entry.1, ·)).foldlM linkEdge g with
      | error e => rfl
      | ok next =>
          apply ih
          intro other hother
          rw [indexOf?, (tables_of_foldlM_linkEdge _ hnext).2]
          exact hfound other (List.mem_cons_of_mem _ hother)

/-- Edges between declared vertices are linked one after the other. -/
theorem Consistent.exists_linked (edges : List (V × V)) : ∀ {g : LabeledGraph V}, g.Consistent →
    (∀ edge ∈ edges, (∃ i, g.indexOf? edge.1 = some i) ∧ ∃ j, g.indexOf? edge.2 = some j) →
      ∃ linked, edges.foldlM linkEdge g = .ok linked := by
  induction edges with
  | nil => exact fun {g} _ _ => ⟨g, rfl⟩
  | cons edge edges ih =>
      intro g hg hends
      obtain ⟨⟨i, hi⟩, j, hj⟩ := hends edge List.mem_cons_self
      obtain ⟨next, hconnect⟩ : ∃ next, g.connect i j = .ok next :=
        ⟨_, (connect_eq_ok_iff g).2 ⟨hg.indexOf_lt hi, rfl⟩⟩
      have hlink : g.linkEdge edge = .ok next := by
        rw [linkEdge_of_found hi]
        exact link_eq_ok_iff.2 ⟨j, hj, hconnect⟩
      have hindex : next.indexOf? = g.indexOf? := by
        funext v
        rw [indexOf?, (tables_of_linkEdge hlink).2]
        rfl
      -- Connecting two vertices leaves the index alone, so the other ends are still found.
      obtain ⟨linked, hlinked⟩ := ih (hg.connect hconnect (hg.indexOf_lt hj)) fun other hother =>
        hindex ▸ hends other (List.mem_cons_of_mem _ hother)
      refine ⟨linked, ?_⟩
      rw [List.foldlM_cons, hlink]
      exact hlinked

theorem ofAdjacency_eq_link {entries : List (V × List V)} {declared : LabeledGraph V}
    (h : entries.foldlM (fun g entry => g.declare entry.1) empty = .ok declared)
    (hfound : ∀ entry ∈ entries, ∃ i, declared.indexOf? entry.1 = some i) :
    ofAdjacency entries = (listedEdges entries).foldlM linkEdge declared := by
  rw [ofAdjacency, h, ← foldlM_linkEntry_eq entries hfound]
  rfl

/-! ## Declarations -/

variable [EquivBEq V] [LawfulHashable V]

theorem declare_of_missing {g : LabeledGraph V} {v : V} (h : g.indexOf? v = none) :
    g.declare v = .ok (g.addVertex v) := by
  rw [declare, Std.HashMap.contains_eq_isSome_getElem?, show g.index[v]? = none from h]
  rfl

theorem declare_of_found {g : LabeledGraph V} {v : V} {i : Nat} (h : g.indexOf? v = some i) :
    g.declare v = .error (.duplicateVertex (Label.quoted v)) := by
  rw [declare, Std.HashMap.contains_eq_isSome_getElem?, show g.index[v]? = some i from h]
  rfl

/-- Vertices that are different from each other and from those of the graph are
declared one after the other. -/
theorem Consistent.exists_declared (entries : List (V × List V)) :
    ∀ {g : LabeledGraph V}, g.Consistent →
    (g.labels.toList ++ entries.map Prod.fst).Pairwise (fun a b => (a == b) = false) →
      ∃ declared, entries.foldlM (fun g entry => g.declare entry.1) g = .ok declared ∧
        declared.Consistent ∧
        declared.labels.toList = g.labels.toList ++ entries.map Prod.fst := by
  induction entries with
  | nil =>
      intro g hg _
      exact ⟨g, rfl, hg, by rw [List.map_nil, List.append_nil]⟩
  | cons entry entries ih =>
      intro g hg hkeys
      have hnew : g.indexOf? entry.1 = none := by
        rw [Option.eq_none_iff_forall_ne_some]
        intro i hi
        -- A label that is equal to the new one would stand before it.
        obtain ⟨a, ha, haeq⟩ := hg.exists_indexOf_iff.1 ⟨i, hi⟩
        have hne := (List.pairwise_append.1 hkeys).2.2 a (Array.mem_toList_iff.2 ha) entry.1
          List.mem_cons_self
        rw [haeq] at hne
        cases hne
      have hlabels : (g.addVertex entry.1).labels.toList = g.labels.toList ++ [entry.1] := by
        rw [addVertex_of_missing g hnew, Array.toList_push]
      have hregroup : (g.addVertex entry.1).labels.toList ++ entries.map Prod.fst =
          g.labels.toList ++ (entry :: entries).map Prod.fst := by
        rw [hlabels, List.append_assoc]
        rfl
      rw [← hregroup] at hkeys
      obtain ⟨declared, hdeclared, hconsistent, hall⟩ := ih (hg.addVertex entry.1) hkeys
      refine ⟨declared, ?_, hconsistent, hall.trans hregroup⟩
      rw [List.foldlM_cons, declare_of_missing hnew]
      exact hdeclared

/-- A description without repeated vertices has all of them declared, in order. -/
theorem exists_declared {entries : List (V × List V)} (hkeys : DistinctKeys entries) :
    ∃ declared : LabeledGraph V,
      entries.foldlM (fun g entry => g.declare entry.1) empty = .ok declared ∧
      declared.Consistent ∧ declared.labels.toList = entries.map Prod.fst ∧
      ∀ v, declares entries v = true ↔ ∃ i, declared.indexOf? v = some i := by
  obtain ⟨declared, hdeclared, hconsistent, hlabels⟩ :=
    Consistent.exists_declared entries (Consistent.empty (V := V)) hkeys
  refine ⟨declared, hdeclared, hconsistent, hlabels, ?_⟩
  intro v
  rw [hconsistent.exists_indexOf_iff, declares, List.any_eq_true]
  simp only [← Array.mem_toList_iff, hlabels]
  simp [empty]

/-- The first repeated vertex ends the declarations, so that no neighbour is looked at. -/
theorem ofAdjacency_of_firstRepeated {entries : List (V × List V)} {entry : V × List V}
    (h : FirstRepeated entries entry) :
    ofAdjacency entries = .error (.duplicateVertex (Label.quoted entry.1)) := by
  obtain ⟨before, after, rfl, hbefore, hentry⟩ := h
  obtain ⟨declared, hdeclared, -, -, hknown⟩ := exists_declared hbefore
  obtain ⟨i, hi⟩ := (hknown entry.1).1 hentry
  have hfailed : (before ++ entry :: after).foldlM (fun g entry => g.declare entry.1)
      (empty : LabeledGraph V) = .error (.duplicateVertex (Label.quoted entry.1)) := by
    rw [List.foldlM_append, hdeclared]
    show (entry :: after).foldlM (fun g entry => g.declare entry.1) declared = _
    rw [List.foldlM_cons, declare_of_found hi]
    rfl
  show (before ++ entry :: after).foldlM (fun g entry => g.declare entry.1)
    (empty : LabeledGraph V) >>= _ = _
  rw [hfailed]
  rfl

/-! ## Edges -/

/-- A description in order makes a graph with its vertices. -/
theorem exists_ofAdjacency {entries : List (V × List V)} (hkeys : DistinctKeys entries)
    (hedges : ∀ edge ∈ listedEdges entries, declares entries edge.2 = true) :
    ∃ g, ofAdjacency entries = .ok g ∧ g.labels.toList = entries.map Prod.fst ∧
      ∀ v, declares entries v = true ↔ ∃ i, g.indexOf? v = some i := by
  obtain ⟨declared, hdeclared, hconsistent, hlabels, hknown⟩ := exists_declared hkeys
  have hends : ∀ edge ∈ listedEdges entries,
      (∃ i, declared.indexOf? edge.1 = some i) ∧ ∃ j, declared.indexOf? edge.2 = some j :=
    fun edge hedge =>
      ⟨(hknown edge.1).1 (declares_of_mem_listedEdges hedge), (hknown edge.2).1 (hedges edge hedge)⟩
  obtain ⟨g, hg⟩ := hconsistent.exists_linked _ hends
  obtain ⟨hsame, hindex⟩ := tables_of_foldlM_linkEdge _ hg
  have heq := ofAdjacency_eq_link hdeclared fun entry h => (hknown entry.1).1 (declares_of_mem h)
  refine ⟨g, heq.trans hg, by rw [hsame, hlabels], ?_⟩
  intro v
  rw [hknown v, indexOf?, indexOf?, hindex]

/-- The first edge to a vertex that is not declared ends the description. -/
theorem ofAdjacency_of_dangling {entries : List (V × List V)} (hkeys : DistinctKeys entries)
    {edge : V × V}
    (h : (listedEdges entries).find? (fun edge => !declares entries edge.2) = some edge) :
    ofAdjacency entries = .error (.danglingEdge (Label.quoted edge.1) (Label.quoted edge.2)) := by
  obtain ⟨hdangling, before, after, hsplit, hbefore⟩ := List.find?_eq_some_iff_append.1 h
  obtain ⟨declared, hdeclared, hconsistent, -, hknown⟩ := exists_declared hkeys
  have hends : ∀ other ∈ before,
      (∃ i, declared.indexOf? other.1 = some i) ∧ ∃ j, declared.indexOf? other.2 = some j := by
    intro other hother
    have hlisted : other ∈ listedEdges entries := hsplit ▸ List.mem_append_left _ hother
    have htarget : declares entries other.2 = true := by simpa using hbefore other hother
    exact ⟨(hknown other.1).1 (declares_of_mem_listedEdges hlisted), (hknown other.2).1 htarget⟩
  obtain ⟨linked, hlinked⟩ := hconsistent.exists_linked before hends
  have hindex := (tables_of_foldlM_linkEdge before hlinked).2
  have hedge : edge ∈ listedEdges entries := hsplit ▸ List.mem_append_right _ List.mem_cons_self
  obtain ⟨i, hi⟩ := (hknown edge.1).1 (declares_of_mem_listedEdges hedge)
  have hmissing : linked.indexOf? edge.2 = none := by
    rw [indexOf?, hindex, Option.eq_none_iff_forall_ne_some]
    intro j hj
    rw [(hknown edge.2).2 ⟨j, hj⟩] at hdangling
    cases hdangling
  have hfailed : linked.linkEdge edge =
      .error (.danglingEdge (Label.quoted edge.1) (Label.quoted edge.2)) := by
    rw [linkEdge_of_found (i := i) (by rw [indexOf?, hindex]; exact hi), link, hmissing]
  rw [ofAdjacency_eq_link hdeclared fun entry h => (hknown entry.1).1 (declares_of_mem h), hsplit,
    List.foldlM_append, hlinked]
  show (edge :: after).foldlM linkEdge linked = _
  rw [List.foldlM_cons, hfailed]
  rfl

/-! ## Outcome -/

theorem exists_ofAdjacency_iff (entries : List (V × List V)) :
    (∃ g, ofAdjacency entries = .ok g) ↔
      DistinctKeys entries ∧ ∀ edge ∈ listedEdges entries, declares entries edge.2 = true := by
  constructor
  · rintro ⟨g, hg⟩
    have hkeys : DistinctKeys entries := by
      by_contra hrepeated
      obtain ⟨entry, hentry⟩ := exists_firstRepeated hrepeated
      cases hg.symm.trans (ofAdjacency_of_firstRepeated hentry)
    refine ⟨hkeys, ?_⟩
    cases hfind : (listedEdges entries).find? (fun edge => !declares entries edge.2) with
    | none => simpa using hfind
    | some edge => cases hg.symm.trans (ofAdjacency_of_dangling hkeys hfind)
  · rintro ⟨hkeys, hedges⟩
    obtain ⟨g, hg, -⟩ := exists_ofAdjacency hkeys hedges
    exact ⟨g, hg⟩

/-- A described graph has the described vertices in order, with the described neighbours in
order. -/
theorem described_of_ofAdjacency {entries : List (V × List V)} {g : LabeledGraph V}
    (hg : ofAdjacency entries = .ok g) :
    g.labels.toList = entries.map Prod.fst ∧
      ∀ entry ∈ entries, ∃ names, g.neighborsOf? entry.1 = .ok (some names) ∧
        (names == entry.2) = true := by
  obtain ⟨hkeys, hedges⟩ := (exists_ofAdjacency_iff entries).1 ⟨g, hg⟩
  obtain ⟨_, hg', hlabels, hknown⟩ := exists_ofAdjacency hkeys hedges
  cases hg.symm.trans hg'
  refine ⟨hlabels, ?_⟩
  intro entry hentry
  have hholds : g.Holds (listedEdges entries) := by
    rw [← filterMap_edge?_descriptionAdditions]
    exact holds_of_addAll (addAll_of_ofAdjacency hg)
  obtain ⟨i, hi⟩ := (hknown entry.1).1 (declares_of_mem hentry)
  rw [← targetsFrom_listedEdges hkeys hentry]
  exact hholds.neighborsOf hi

/-- A description makes a graph iff no vertex is declared twice and every neighbour is declared. If
a vertex is declared twice, the error names the first one that is, whatever its neighbours are;
otherwise, if a neighbour is not declared, the error names the first edge to such a neighbour. The
graph has the declared vertices in order, each with its neighbours in order, equal as labels are,
and is what one gets by adding all vertices and then all edges. -/
theorem ofAdjacency_outcome (entries : List (V × List V)) :
    ((∃ g, ofAdjacency entries = .ok g) ↔
      DistinctKeys entries ∧ ∀ edge ∈ listedEdges entries, declares entries edge.2 = true) ∧
      (¬ DistinctKeys entries → ∃ entry, FirstRepeated entries entry ∧
        ofAdjacency entries = .error (.duplicateVertex (Label.quoted entry.1))) ∧
      (DistinctKeys entries → (∃ edge ∈ listedEdges entries, declares entries edge.2 = false) →
        ∃ edge, (listedEdges entries).find? (fun edge => !declares entries edge.2) = some edge ∧
          ofAdjacency entries =
            .error (.danglingEdge (Label.quoted edge.1) (Label.quoted edge.2))) ∧
      ∀ g, ofAdjacency entries = .ok g → g.labels.toList = entries.map Prod.fst ∧
        (∀ entry ∈ entries, ∃ names, g.neighborsOf? entry.1 = .ok (some names) ∧
          (names == entry.2) = true) ∧
        empty.addAll (entries.map (fun entry => .vertex entry.1) ++
          (listedEdges entries).map fun edge => .edge edge.1 edge.2) = .ok g := by
  refine ⟨exists_ofAdjacency_iff entries, ?_, ?_, ?_⟩
  · intro hrepeated
    obtain ⟨entry, hentry⟩ := exists_firstRepeated hrepeated
    exact ⟨entry, hentry, ofAdjacency_of_firstRepeated hentry⟩
  · intro hkeys hdangling
    obtain ⟨edge, hedge⟩ := exists_firstDangling hdangling
    exact ⟨edge, hedge, ofAdjacency_of_dangling hkeys hedge⟩
  · intro g hg
    obtain ⟨hlabels, hneighbors⟩ := described_of_ofAdjacency hg
    refine ⟨hlabels, hneighbors, ?_⟩
    rw [← descriptionAdditions_eq]
    exact addAll_of_ofAdjacency hg

/-- Neighbours declared further down, repeated ones and a loop; then a vertex declared twice after
an edge that leads nowhere; then two such edges. -/
theorem ofAdjacency_outcome_names :
    (∃ g : LabeledGraph String, ofAdjacency [("b", ["a", "b", "a"]), ("a", [])] = .ok g ∧
      g.labels.toList = ["b", "a"] ∧
      ∃ names, g.neighborsOf? "b" = .ok (some names) ∧ (names == ["a", "b", "a"]) = true) ∧
      (∃ entry, FirstRepeated [("a", ["x"]), ("b", []), ("a", [])] entry ∧
        (ofAdjacency [("a", ["x"]), ("b", []), ("a", [])] :
            Except GraphError (LabeledGraph String)) =
          .error (.duplicateVertex (Label.quoted entry.1))) ∧
      (ofAdjacency [("a", ["a", "x"]), ("b", ["y"])] : Except GraphError (LabeledGraph String)) =
        .error (.danglingEdge (Label.quoted "a") (Label.quoted "x")) := by
  refine ⟨?_, ?_, ?_⟩
  · obtain ⟨haccepted, -, -, hgraph⟩ := ofAdjacency_outcome [("b", ["a", "b", "a"]), ("a", [])]
    have hkeys : DistinctKeys [("b", ["a", "b", "a"]), ("a", [])] := by simp [DistinctKeys]
    obtain ⟨g, hg⟩ := haccepted.2 ⟨hkeys, by decide⟩
    obtain ⟨hlabels, hneighbors, -⟩ := hgraph g hg
    exact ⟨g, hg, hlabels, hneighbors _ List.mem_cons_self⟩
  · obtain ⟨-, hrepeated, -⟩ := ofAdjacency_outcome [("a", ["x"]), ("b", []), ("a", [])]
    exact hrepeated (by simp [DistinctKeys])
  · obtain ⟨-, -, hdangling, -⟩ := ofAdjacency_outcome [("a", ["a", "x"]), ("b", ["y"])]
    obtain ⟨edge, hedge, herror⟩ :=
      hdangling (by simp [DistinctKeys]) ⟨("a", "x"), by decide, by decide⟩
    cases hedge
    exact herror

end StrongComponents.LabeledGraph
