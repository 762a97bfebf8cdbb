import StrongComponents.Labeled.EdgeList
import Mathlib.Data.List.Infix
import Mathlib.Data.List.Permutation

/-!
# The numbers of labels

A labelled graph keeps three tables by hand: the labels, their numbers, and the neighbour lists.
`Consistent` says that the tables agree: no label occurs twice, looking a label up finds exactly its
place in the list of labels, and neighbour lists name existing vertices. Every way to make a graph
gives a consistent one (`Built.consistent`).

What is added to a consistent graph is added without fail and only extends it (`Extends`): labels
keep their numbers, and every neighbour list stays the front part of what it becomes. This is proved
for one addition and carried along a list of additions (`built_addAll_consistent`).

Labels are compared by `==`, of which only the laws of an equivalence are used.
-/

set_option autoImplicit false

namespace StrongComponents

namespace LabeledGraph

variable {V : Type} [BEq V] [Hashable V]

/-- The graphs that can be made: the empty graph, one from a description, one from a list of edges,
and whatever is added to these. -/
inductive Built [Label V] : LabeledGraph V → Prop where
  | empty : Built empty
  | ofAdjacency {entries : List (V × List V)} {g : LabeledGraph V} :
      ofAdjacency entries = .ok g → Built g
  | ofEdgeList {edges : List (V × V)} {g : LabeledGraph V} : ofEdgeList edges = .ok g → Built g
  | add {g h : LabeledGraph V} (addition : Addition V) :
      Built g → g.add addition = .ok h → Built h

/-- The tables of a labelled graph agree. -/
structure Consistent (g : LabeledGraph V) : Prop where
  /-- No label occurs twice. -/
  distinct : g.labels.toList.Pairwise fun a b => (a == b) = false
  size_index : g.index.size = g.labels.size
  size_adjacency : g.graph.adjacency.size = g.labels.size
  /-- Looking a label up finds its place in the list of labels, and nothing else. -/
  indexOf_iff : ∀ v i, g.indexOf? v = some i ↔ ∃ a, g.label i = .ok a ∧ (a == v) = true
  /-- Neighbours are vertices. -/
  wellFormed : g.graph.WellFormed

/-- What the second graph holds beyond the first was put at the end of the list of labels
and of the neighbour lists. -/
structure Extends (g h : LabeledGraph V) : Prop where
  labels : g.labels.toList <+: h.labels.toList
  indexOf : ∀ v i, g.indexOf? v = some i → h.indexOf? v = some i
  adjacency : ∀ (i : Nat) (targets : Array Nat), g.graph.adjacency[i]? = some targets →
    ∃ more, h.graph.adjacency[i]? = some (targets ++ more)

/-! ## What each operation does to the tables -/

section Tables

variable (g : LabeledGraph V)

theorem label_eq_ok_iff {i : Nat} {a : V} :
    g.label i = .ok a ↔ g.labels[i]? = some a := fetch_eq_ok_iff

theorem insert_of_found {v : V} {i : Nat} (h : g.indexOf? v = some i) : g.insert v = (g, i) := by
  obtain ⟨⟨adjacency⟩, labels, index⟩ := g
  have hfound : index[v]? = some i := h
  simp only [insert, hfound]

theorem insert_of_missing {v : V} (h : g.indexOf? v = none) :
    g.insert v =
      (⟨⟨g.graph.adjacency.push #[]⟩, g.labels.push v, g.index.insert v g.labels.size⟩,
        g.labels.size) := by
  obtain ⟨⟨adjacency⟩, labels, index⟩ := g
  have hmissing : index[v]? = none := h
  simp only [insert, hmissing]

theorem addVertex_of_found {v : V} {i : Nat} (h : g.indexOf? v = some i) : g.addVertex v = g := by
  rw [addVertex, insert_of_found g h]

theorem addVertex_of_missing {v : V} (h : g.indexOf? v = none) :
    g.addVertex v =
      ⟨⟨g.graph.adjacency.push #[]⟩, g.labels.push v, g.index.insert v g.labels.size⟩ := by
  rw [addVertex, insert_of_missing g h]

/-- The neighbour list of a vertex that is there already or yet to come; a new vertex has none. -/
theorem getD_adjacency_addVertex (v : V) (i : Nat) :
    (g.addVertex v).graph.adjacency[i]?.getD #[] = g.graph.adjacency[i]?.getD #[] := by
  cases hv : g.indexOf? v with
  | some k => rw [addVertex_of_found g hv]
  | none =>
      rw [addVertex_of_missing g hv, Array.getElem?_push]
      by_cases hi : i = g.graph.adjacency.size
      · simp [hi]
      · rw [if_neg hi]

/-- A neighbour is added to a list that is there, and nothing else changes. -/
theorem connect_eq_ok_iff {i j : Nat} {h : LabeledGraph V} :
    g.connect i j = .ok h ↔ i < g.graph.vertexCount ∧
      h = ⟨⟨g.graph.adjacency.modify i (·.push j)⟩, g.labels, g.index⟩ := by
  obtain ⟨⟨adjacency⟩, labels, index⟩ := g
  show (if i < adjacency.size then Except.ok _ else _) = _ ↔ i < adjacency.size ∧ _
  by_cases hi : i < adjacency.size
  · simp [hi, eq_comm]
  · simp [hi]

theorem number_eq_ok_iff {v : V} {i : Nat} :
    g.number v = .ok i ↔ g.indexOf? v = some i := by
  rw [number]
  cases g.indexOf? v with
  | none => simp
  | some j => simp

theorem addAll_append (before after : List (Addition V)) :
    g.addAll (before ++ after) = g.addAll before >>= fun h => h.addAll after := List.foldlM_append

theorem addAll_cons (addition : Addition V) (additions : List (Addition V)) :
    g.addAll (addition :: additions) = g.add addition >>= fun h => h.addAll additions :=
  List.foldlM_cons

theorem addAll_singleton (addition : Addition V) : g.addAll [addition] = g.add addition := by
  rw [addAll_cons]
  exact bind_pure _

end Tables

/-- Where each step makes additions, so do all of them together. -/
theorem addAll_of_foldlM {α : Type} {step : LabeledGraph V → α → Except GraphError (LabeledGraph V)}
    (additions : α → List (Addition V))
    (hstep : ∀ g x h, step g x = .ok h → g.addAll (additions x) = .ok h) (xs : List α) :
    ∀ {g h : LabeledGraph V}, xs.foldlM step g = .ok h →
      g.addAll (xs.flatMap additions) = .ok h := by
  induction xs with
  | nil => exact id
  | cons x xs ih =>
      intro g h hok
      rw [List.foldlM_cons] at hok
      obtain ⟨next, hnext, hrest⟩ := bind_eq_ok_iff.1 hok
      rw [List.flatMap_cons, addAll_append, hstep g x next hnext]
      exact ih hrest

theorem addAll_of_declare [Label V] {g h : LabeledGraph V} {v : V} (hok : g.declare v = .ok h) :
    g.addAll [.vertex v] = .ok h := by
  rw [addAll_singleton]
  rw [declare] at hok
  split at hok
  · cases hok
  · exact hok

namespace Extends

variable {g h k : LabeledGraph V}

theorem refl (g : LabeledGraph V) : g.Extends g where
  labels := List.prefix_refl _
  indexOf := fun _ _ h => h
  adjacency := fun _ targets h => ⟨#[], by rw [Array.append_empty, h]⟩

theorem trans (hgh : g.Extends h) (hhk : h.Extends k) : g.Extends k where
  labels := hgh.labels.trans hhk.labels
  indexOf := fun v i hv => hhk.indexOf v i (hgh.indexOf v i hv)
  adjacency := by
    intro i targets hi
    obtain ⟨more, hmore⟩ := hgh.adjacency i targets hi
    obtain ⟨further, hfurther⟩ := hhk.adjacency i _ hmore
    exact ⟨more ++ further, by rw [hfurther, Array.append_assoc]⟩

/-- A further neighbour stands at the end of a neighbour list. -/
theorem connect {i j : Nat} (hok : g.connect i j = .ok h) : g.Extends h := by
  obtain ⟨-, rfl⟩ := (connect_eq_ok_iff g).1 hok
  refine ⟨List.prefix_refl _, fun _ _ h => h, ?_⟩
  intro k targets hk
  rw [Array.getElem?_modify, hk]
  by_cases hik : i = k
  · exact ⟨#[j], by simp [hik]⟩
  · exact ⟨#[], by simp [hik]⟩

end Extends

section Links

variable [Label V]

theorem link_eq_ok_iff {g h : LabeledGraph V} {source target : V} {i : Nat} :
    g.link source i target = .ok h ↔ ∃ j, g.indexOf? target = some j ∧ g.connect i j = .ok h := by
  rw [link]
  cases g.indexOf? target with
  | none => simp
  | some j => simp

/-- Edges from a vertex that is there are added as any others. -/
theorem addAll_of_links {source : V} {i : Nat} (targets : List V) :
    ∀ {g h : LabeledGraph V}, g.indexOf? source = some i →
      targets.foldlM (fun g w => g.link source i w) g = .ok h →
        g.addAll (targets.map (.edge source ·)) = .ok h := by
  induction targets with
  | nil => exact fun _ hok => hok
  | cons target targets ih =>
      intro g h hi hok
      obtain ⟨next, hlink, hrest⟩ := bind_eq_ok_iff.1 hok
      obtain ⟨j, hj, hconnect⟩ := link_eq_ok_iff.1 hlink
      have hadd : g.add (.edge source target) = .ok next := by
        rw [add, addEdge, insert_of_found g hi]
        dsimp only
        rw [insert_of_found g hj]
        exact hconnect
      rw [List.map_cons, addAll_cons, hadd]
      exact ih ((Extends.connect hconnect).indexOf source i hi) hrest

theorem addAll_of_linkEntry {g h : LabeledGraph V} {entry : V × List V}
    (hok : g.linkEntry entry = .ok h) :
    g.addAll (entry.2.map (.edge entry.1 ·)) = .ok h := by
  obtain ⟨i, hi, hlinks⟩ := bind_eq_ok_iff.1 hok
  exact addAll_of_links entry.2 ((number_eq_ok_iff g).1 hi) hlinks

/-- The additions that a description asks for: first all its vertices, then all its edges. -/
def descriptionAdditions (entries : List (V × List V)) : List (Addition V) :=
  entries.flatMap (fun e => [.vertex e.1]) ++ entries.flatMap fun e => e.2.map (.edge e.1 ·)

/-- A graph from a description has the vertices and edges of the description added one by one. -/
theorem addAll_of_ofAdjacency {entries : List (V × List V)} {g : LabeledGraph V}
    (hok : ofAdjacency entries = .ok g) :
    LabeledGraph.empty.addAll (descriptionAdditions entries) = .ok g := by
  rw [ofAdjacency] at hok
  obtain ⟨declared, hdeclared, hlinked⟩ := bind_eq_ok_iff.1 hok
  have hvertices := addAll_of_foldlM (fun e : V × List V => [.vertex e.1])
    (fun g e h hh => addAll_of_declare hh) entries hdeclared
  have hedges := addAll_of_foldlM (fun e : V × List V => e.2.map (.edge e.1 ·))
    (fun g e h hh => addAll_of_linkEntry hh) entries hlinked
  rw [descriptionAdditions, addAll_append, hvertices]
  exact hedges

end Links

namespace Consistent

variable {g : LabeledGraph V}

/-- The vertices are the places in the list of labels. -/
theorem vertexCount_eq (hg : g.Consistent) :
    g.graph.vertexCount = g.labels.size := hg.size_adjacency

/-- A label that is found has a number below the number of vertices. -/
theorem indexOf_lt (hg : g.Consistent) {v : V} {i : Nat} (h : g.indexOf? v = some i) :
    i < g.graph.vertexCount := by
  obtain ⟨a, ha, -⟩ := (hg.indexOf_iff v i).1 h
  rw [hg.vertexCount_eq]
  exact (Array.getElem?_eq_some_iff.1 ((label_eq_ok_iff g).1 ha)).1

/-- Every vertex has a label. -/
theorem exists_label (hg : g.Consistent) {i : Nat} (hi : i < g.graph.vertexCount) :
    ∃ a, g.label i = .ok a := by
  rw [hg.vertexCount_eq] at hi
  exact ⟨g.labels[i], (label_eq_ok_iff g).2 (Array.getElem?_eq_getElem hi)⟩

/-- A label is found iff it is one of the labels. -/
theorem exists_indexOf_iff (hg : g.Consistent) {v : V} :
    (∃ i, g.indexOf? v = some i) ↔ ∃ a ∈ g.labels, (a == v) = true := by
  constructor
  · rintro ⟨i, hi⟩
    obtain ⟨a, ha, hav⟩ := (hg.indexOf_iff v i).1 hi
    exact ⟨a, Array.mem_of_getElem? ((label_eq_ok_iff g).1 ha), hav⟩
  · rintro ⟨a, ha, hav⟩
    obtain ⟨i, hi⟩ := Array.mem_iff_getElem?.1 ha
    exact ⟨i, (hg.indexOf_iff v i).2 ⟨a, (label_eq_ok_iff g).2 hi, hav⟩⟩

/-- A label without a number is equal to none of the labels. -/
theorem beq_eq_false_of_missing (hg : g.Consistent) {v a : V} (hv : g.indexOf? v = none)
    (ha : a ∈ g.labels) : (a == v) = false := by
  cases hav : a == v with
  | false => rfl
  | true =>
      obtain ⟨i, hi⟩ := hg.exists_indexOf_iff.2 ⟨a, ha, hav⟩
      cases hv.symm.trans hi

/-- A further neighbour that is a vertex leaves the tables in agreement. -/
theorem connect (hg : g.Consistent) {h : LabeledGraph V} {i j : Nat} (hok : g.connect i j = .ok h)
    (hj : j < g.graph.vertexCount) : h.Consistent := by
  obtain ⟨-, rfl⟩ := (connect_eq_ok_iff g).1 hok
  refine ⟨hg.distinct, hg.size_index, ?_, hg.indexOf_iff, ?_⟩
  · rw [Array.size_modify]
    exact hg.size_adjacency
  · intro targets htargets u hu
    show u < (g.graph.adjacency.modify i (·.push j)).size
    rw [Array.size_modify]
    obtain ⟨k, hk⟩ := Array.mem_iff_getElem?.1 htargets
    rw [Array.getElem?_modify] at hk
    -- Only the list of `i` is longer than before, and only by `j`.
    split at hk
    · obtain ⟨before, hbefore, rfl⟩ := Option.map_eq_some_iff.1 hk
      rcases Array.mem_push.1 hu with hold | rfl
      · exact hg.wellFormed before (Array.mem_of_getElem? hbefore) u hold
      · exact hj
    · exact hg.wellFormed targets (Array.mem_of_getElem? hk) u hu

/-- A label that is not there has no list of neighbours. -/
theorem neighborsOf_of_missing {v : V} (h : g.indexOf? v = none) : g.neighborsOf? v = .ok none := by
  rw [neighborsOf?, h]
  rfl

/-- The neighbours of a label that is there are found without fail: they are the labels of the
listed vertices in order. -/
theorem neighborsOf_of_found (hg : g.Consistent) {v : V} {i : Nat} (h : g.indexOf? v = some i) :
    ∃ targets names, g.graph.adjacency[i]? = some targets ∧ g.neighborsOf? v = .ok (some names) ∧
      targets.toList.map g.label = names.map .ok := by
  have hi : i < g.graph.adjacency.size := hg.indexOf_lt h
  have hlist : g.graph.neighbors i = .ok g.graph.adjacency[i] :=
    fetch_eq_ok_iff.2 (Array.getElem?_eq_getElem hi)
  obtain ⟨names, hnames⟩ : ∃ names : List V, g.graph.adjacency[i].toList.map g.label =
      names.map .ok := by
    -- What is listed as a neighbour is a vertex, and every vertex has a label.
    apply exists_map_eq_ok
    intro j hj
    exact hg.exists_label (hg.wellFormed _ (Array.getElem_mem hi) j (Array.mem_toList_iff.1 hj))
  refine ⟨_, names, Array.getElem?_eq_getElem hi, ?_, hnames⟩
  rw [neighborsOf?, h]
  show (g.graph.neighbors i >>= fun targets => targets.toList.mapM g.label >>= fun names =>
    Except.ok (some names)) = _
  rw [bind_eq_ok_iff]
  refine ⟨_, hlist, ?_⟩
  rw [mapM_eq_ok_iff.2 hnames]
  rfl

/-- Asking for neighbours never fails, and gives a list exactly for the labels that are there. -/
theorem exists_neighborsOf (hg : g.Consistent) (v : V) :
    ∃ found, g.neighborsOf? v = .ok found ∧
      (found.isSome ↔ ∃ a ∈ g.labels, (a == v) = true) := by
  rw [← hg.exists_indexOf_iff]
  cases hv : g.indexOf? v with
  | none => exact ⟨none, neighborsOf_of_missing hv, by simp⟩
  | some i =>
      obtain ⟨-, names, -, hnames, -⟩ := hg.neighborsOf_of_found hv
      exact ⟨some names, hnames, by simp⟩

end Consistent

/-- Every graph that can be made is the empty graph with additions. -/
theorem Built.exists_additions [Label V] {g : LabeledGraph V} (hg : g.Built) :
    ∃ additions, LabeledGraph.empty.addAll additions = .ok g := by
  induction hg with
  | empty => exact ⟨[], rfl⟩
  | ofAdjacency hok => exact ⟨_, addAll_of_ofAdjacency hok⟩
  | @ofEdgeList edges g hok =>
      refine ⟨edges.map fun e => .edge e.1 e.2, ?_⟩
      rw [addAll, List.foldlM_map]
      exact hok
  | @add g h addition _ hok ih =>
      obtain ⟨additions, hadditions⟩ := ih
      refine ⟨additions ++ [addition], ?_⟩
      rw [addAll_append, hadditions]
      exact (addAll_singleton g addition).trans hok

section Lawful

variable [EquivBEq V] [LawfulHashable V]

/-- A new label gets a number that no label had, so the others keep theirs. -/
theorem Extends.addVertex (g : LabeledGraph V) (v : V) : g.Extends (g.addVertex v) := by
  cases hv : g.indexOf? v with
  | some k =>
      rw [addVertex_of_found g hv]
      exact .refl g
  | none =>
      rw [addVertex_of_missing g hv]
      refine ⟨?_, ?_, ?_⟩
      · rw [Array.toList_push]
        exact List.prefix_append _ _
      · intro w i hw
        have hne : (v == w) = false := by
          -- Were `w` the new label, it would have been found before.
          cases hvw : v == w with
          | false => rfl
          | true =>
              rw [indexOf?, Std.HashMap.getElem?_congr hvw] at hv
              cases hv.symm.trans hw
        show (g.index.insert v g.labels.size)[w]? = some i
        rw [Std.HashMap.getElem?_insert, hne]
        exact hw
      · intro i targets hi
        have hlt : i ≠ g.graph.adjacency.size :=
          Nat.ne_of_lt (Array.getElem?_eq_some_iff.1 hi).1
        exact ⟨#[], by rw [Array.getElem?_push, if_neg hlt, hi, Array.append_empty]⟩

/-- A label that was just added is found, with the number that it was given. -/
theorem indexOf_insert (g : LabeledGraph V) (v : V) :
    (g.addVertex v).indexOf? v = some (g.insert v).2 := by
  cases hv : g.indexOf? v with
  | some i => rw [addVertex_of_found g hv, insert_of_found g hv, hv]
  | none =>
      rw [addVertex_of_missing g hv, insert_of_missing g hv]
      simp [indexOf?]

/-- Adding an edge adds its ends and then connects their numbers. -/
theorem addEdge_eq_connect (g : LabeledGraph V) (source target : V) :
    ∃ i j, ((g.addVertex source).addVertex target).indexOf? source = some i ∧
      ((g.addVertex source).addVertex target).indexOf? target = some j ∧
      g.addEdge source target = ((g.addVertex source).addVertex target).connect i j := by
  refine ⟨_, _, ?_, indexOf_insert (g.addVertex source) target, rfl⟩
  -- Adding the target leaves the number of the source as it is.
  exact (Extends.addVertex (g.addVertex source) target).indexOf source _ (indexOf_insert g source)

namespace Consistent

variable {g : LabeledGraph V}

/-- The graph without vertices has empty tables. -/
theorem empty : (LabeledGraph.empty : LabeledGraph V).Consistent where
  distinct := List.Pairwise.nil
  size_index := Std.HashMap.size_empty
  size_adjacency := rfl
  indexOf_iff := by simp [LabeledGraph.empty, indexOf?, label, fetch]
  wellFormed := by simp [LabeledGraph.empty, Graph.WellFormed]

/-- With a new label at the end, numbers are still places. -/
theorem indexOf_iff_push (hg : g.Consistent) {v : V} (hv : g.indexOf? v = none) (w : V) (i : Nat) :
    (g.index.insert v g.labels.size)[w]? = some i ↔
      ∃ a, (g.labels.push v)[i]? = some a ∧ (a == w) = true := by
  have hold := hg.indexOf_iff w i
  simp only [indexOf?, label_eq_ok_iff] at hold
  rw [Std.HashMap.getElem?_insert, Array.getElem?_push]
  -- The new place holds the new label; every other place and every other label is as before.
  by_cases hi : i = g.labels.size
  · subst hi
    rw [Array.getElem?_eq_none (Nat.le_refl _)] at hold
    cases hvw : v == w <;> simp [hvw, hold]
  · cases hvw : v == w with
    | false => simp [hi, hold]
    | true =>
        simp only [if_true, if_neg hi, Option.some.injEq, Ne.symm hi, false_iff]
        rintro ⟨a, ha, haw⟩
        have hav : (a == v) = true := BEq.trans haw (BEq.symm hvw)
        rw [hg.beq_eq_false_of_missing hv (Array.mem_of_getElem? ha)] at hav
        cases hav

/-- A new label goes to the end of the list of labels, and its number is the place where it went. -/
theorem addVertex (hg : g.Consistent) (v : V) : (g.addVertex v).Consistent := by
  cases hv : g.indexOf? v with
  | some k =>
      rw [addVertex_of_found g hv]
      exact hg
  | none =>
      rw [addVertex_of_missing g hv]
      constructor
      case distinct =>
        rw [Array.toList_push, List.pairwise_append]
        refine ⟨hg.distinct, List.pairwise_singleton _ _, ?_⟩
        intro a ha b hb
        rw [List.mem_singleton.1 hb]
        exact hg.beq_eq_false_of_missing hv (Array.mem_toList_iff.1 ha)
      case size_index =>
        rw [Std.HashMap.size_insert, Array.size_push, hg.size_index, if_neg]
        rw [Std.HashMap.mem_iff_isSome_getElem?, show g.index[v]? = none from hv]
        exact Bool.false_ne_true
      case size_adjacency => rw [Array.size_push, Array.size_push, hg.size_adjacency]
      case indexOf_iff =>
        intro w i
        simp only [label_eq_ok_iff]
        exact hg.indexOf_iff_push hv w i
      case wellFormed =>
        intro targets htargets u hu
        rcases Array.mem_push.1 htargets with hmem | rfl
        · exact Nat.lt_of_lt_of_le (hg.wellFormed targets hmem u hu) (by simp [Graph.vertexCount])
        · exact absurd hu (Array.not_mem_empty u)

/-- An edge is added without fail. It stands at the end of the neighbour list of its source. -/
theorem exists_addEdge (hg : g.Consistent) (source target : V) :
    ∃ h i j, g.addEdge source target = .ok h ∧ h.Consistent ∧ g.Extends h ∧
      h.indexOf? source = some i ∧ h.indexOf? target = some j ∧
      h.graph.adjacency[i]? = some ((g.graph.adjacency[i]?.getD #[]).push j) := by
  have hends := (hg.addVertex source).addVertex target
  obtain ⟨i, j, hi, hj, heq⟩ := addEdge_eq_connect g source target
  have hlt := hends.indexOf_lt hi
  obtain ⟨h, hok⟩ : ∃ h, ((g.addVertex source).addVertex target).connect i j = .ok h :=
    ⟨_, (connect_eq_ok_iff _).2 ⟨hlt, rfl⟩⟩
  have hkept := Extends.connect hok
  refine ⟨h, i, j, heq.trans hok, hends.connect hok (hends.indexOf_lt hj), ?_,
    hkept.indexOf source i hi, hkept.indexOf target j hj, ?_⟩
  · exact ((Extends.addVertex g source).trans (Extends.addVertex _ target)).trans hkept
  · obtain ⟨-, rfl⟩ := (connect_eq_ok_iff _).1 hok
    have hlist := Array.getElem?_eq_getElem hlt
    have hsame := (getD_adjacency_addVertex (g.addVertex source) target i).trans
      (getD_adjacency_addVertex g source i)
    rw [hlist, Option.getD_some] at hsame
    rw [Array.getElem?_modify, if_pos rfl, hlist, Option.map_some, hsame]

end Consistent

/-! ## Runs of operations -/

/-- One addition succeeds, keeps the tables in agreement and extends the graph. -/
theorem Consistent.exists_add {g : LabeledGraph V} (hg : g.Consistent) (addition : Addition V) :
    ∃ h, g.add addition = .ok h ∧ h.Consistent ∧ g.Extends h := by
  cases addition with
  | vertex v => exact ⟨_, rfl, hg.addVertex v, Extends.addVertex g v⟩
  | edge source target =>
      obtain ⟨h, -, -, hok, hconsistent, hextends, -⟩ := hg.exists_addEdge source target
      exact ⟨h, hok, hconsistent, hextends⟩

theorem Consistent.exists_addAll (additions : List (Addition V)) :
    ∀ {g : LabeledGraph V}, g.Consistent →
      ∃ h, g.addAll additions = .ok h ∧ h.Consistent ∧ g.Extends h := by
  induction additions with
  | nil => exact fun {g} hg => ⟨g, rfl, hg, Extends.refl g⟩
  | cons addition additions ih =>
      intro g hg
      obtain ⟨next, hnext, hconsistent, hextends⟩ := hg.exists_add addition
      obtain ⟨h, hok, hconsistent', hextends'⟩ := ih hconsistent
      refine ⟨h, ?_, hconsistent', hextends.trans hextends'⟩
      rw [addAll_cons, hnext]
      exact hok

theorem Consistent.of_addAll {g h : LabeledGraph V} (hg : g.Consistent)
    {additions : List (Addition V)} (hok : g.addAll additions = .ok h) : h.Consistent := by
  obtain ⟨h', hok', hconsistent, -⟩ := hg.exists_addAll additions
  cases hok.symm.trans hok'
  exact hconsistent

/-- A list of edges always makes a graph. -/
theorem exists_ofEdgeList (edges : List (V × V)) :
    ∃ g : LabeledGraph V, ofEdgeList edges = .ok g := by
  obtain ⟨g, hok, -⟩ := (Consistent.empty (V := V)).exists_addAll (edges.map fun e => .edge e.1 e.2)
  rw [addAll, List.foldlM_map] at hok
  exact ⟨g, hok⟩

/-! ## Every way to make a graph -/

section Description

variable [Label V]

theorem Built.consistent {g : LabeledGraph V} (hg : g.Built) : g.Consistent := by
  obtain ⟨additions, hok⟩ := hg.exists_additions
  exact Consistent.empty.of_addAll hok

/-- However a graph was made and whatever is added to it, the additions succeed, its tables
agree, and what was there before stays: labels keep their numbers, and neighbour lists grow at
their ends only. Asking for neighbours never fails and gives a list exactly for the labels that
are there. An edge that is added next is added without fail and stands at the end of the
neighbour list of its source. -/
theorem built_addAll_consistent (g : LabeledGraph V) (hg : g.Built)
    (additions : List (Addition V)) :
    ∃ h, g.addAll additions = .ok h ∧ h.Consistent ∧ g.Extends h ∧
      (∀ v, ∃ found, h.neighborsOf? v = .ok found ∧
        (found.isSome ↔ ∃ a ∈ h.labels, (a == v) = true)) ∧
      ∀ source target, ∃ h' i j, h.addEdge source target = .ok h' ∧
        h'.indexOf? source = some i ∧ h'.indexOf? target = some j ∧
        h'.graph.adjacency[i]? = some ((h.graph.adjacency[i]?.getD #[]).push j) := by
  obtain ⟨h, hok, hconsistent, hextends⟩ := hg.consistent.exists_addAll additions
  refine ⟨h, hok, hconsistent, hextends, hconsistent.exists_neighborsOf, ?_⟩
  intro source target
  obtain ⟨h', i, j, hadded, -, -, hi, hj, hlist⟩ := hconsistent.exists_addEdge source target
  exact ⟨h', i, j, hadded, hi, hj, hlist⟩

/-- A described graph to which a loop at a new label, a label that is there and a repeated edge are
added. -/
theorem built_addAll_consistent_names :
    ∃ g h : LabeledGraph String, ofAdjacency [("b", ["a", "b"]), ("a", [])] = .ok g ∧
      g.addAll [.edge "c" "c", .vertex "a", .edge "b" "a"] = .ok h ∧ h.Consistent ∧ g.Extends h ∧
      g.graph.adjacency = #[#[1, 0], #[]] ∧ h.labels = #["b", "a", "c"] ∧
      h.graph.adjacency = #[#[1, 0, 1], #[], #[2]] := by
  have hbefore : (ofAdjacency [("b", ["a", "b"]), ("a", [])] :
      Except GraphError (LabeledGraph String)).map (·.graph.adjacency) = .ok #[#[1, 0], #[]] := by
    cbv
  have hafter : ((ofAdjacency [("b", ["a", "b"]), ("a", [])] :
      Except GraphError (LabeledGraph String)) >>= fun g =>
        (g.addAll [.edge "c" "c", .vertex "a", .edge "b" "a"]).map fun h =>
          (h.labels, h.graph.adjacency)) =
        .ok (#["b", "a", "c"], #[#[1, 0, 1], #[], #[2]]) := by
    cbv
  obtain ⟨g, hg, hadded⟩ := bind_eq_ok_iff.1 hafter
  obtain ⟨h, hh, hlists⟩ := map_eq_ok_iff.1 hadded
  obtain ⟨h', hok, hconsistent, hextends, -⟩ :=
    built_addAll_consistent g (.ofAdjacency hg) [.edge "c" "c", .vertex "a", .edge "b" "a"]
  cases hh.symm.trans hok
  obtain ⟨g', hg', hadjacency⟩ := map_eq_ok_iff.1 hbefore
  cases hg.symm.trans hg'
  obtain ⟨hlabels, hlists⟩ := Prod.mk.inj hlists
  exact ⟨g, h, hg, hok, hconsistent, hextends, hadjacency, hlabels, hlists⟩

end Description

end Lawful

end LabeledGraph

/-! ## Edge lists -/

namespace EdgeList

/-- A line adds at most one vertex or edge. -/
theorem built_of_addLine {g h : LabeledGraph String} {line : List Char} {number : Nat}
    (hg : g.Built) (hok : addLine g line number = .ok h) : h.Built := by
  unfold addLine at hok
  split at hok
  · cases hok
    exact hg
  · cases hok
    exact LabeledGraph.Built.add (.vertex _) hg rfl
  · rename_i source target _
    exact LabeledGraph.Built.add (.edge source target) hg (mapError_eq_ok_iff.1 hok)
  · cases hok

theorem built_of_addLines (lines : List (List Char)) :
    ∀ {g h : LabeledGraph String} {number : Nat}, g.Built → addLines g number lines = .ok h →
      h.Built := by
  induction lines with
  | nil =>
      intro g h number hg hok
      cases hok
      exact hg
  | cons line lines ih =>
      intro g h number hg hok
      rw [addLines] at hok
      split at hok
      · cases hok
      · rename_i next hnext
        exact ih (built_of_addLine hg hnext) hok

/-- The graph of an edge list is made by additions to the empty graph. -/
theorem built_of_parse {text : String} {g : LabeledGraph String} (hok : parse text = .ok g) :
    g.Built :=
  built_of_addLines (lines text) .empty hok

end EdgeList

end StrongComponents
