import StrongComponents.Proofs.Components.Partition
import StrongComponents.Proofs.Labeled.Numbering
import Mathlib.Algebra.GroupWithZero.Nat

/-!
# What additions leave in a graph

A graph is made by adding vertices and edges one by one, and each addition may bring no label, one
or two that were not there before. What is there in the end can be told from the list of additions
alone: the labels are those that the additions mention, in the order of their first mention
(`labels_of_addAll`), and the neighbours of a label are the targets of the added edges from it, in
the order in which they were added (`holds_of_addAll`).
-/

set_option autoImplicit false

namespace StrongComponents

/-! ## Counting edges -/

namespace Graph

theorem edgeCount_eq_sum (g : Graph) : g.edgeCount = (g.adjacency.toList.map Array.size).sum := by
  rw [edgeCount, ← Array.foldl_toList, List.sum_eq_foldl, List.foldl_map]

theorem edgeCount_push_empty (g : Graph) :
    (⟨g.adjacency.push #[]⟩ : Graph).edgeCount = g.edgeCount := by
  simp [edgeCount_eq_sum]

/-- A further neighbour of a vertex is one edge more. -/
theorem edgeCount_modify_push {g : Graph} {i : Nat} (hi : i < g.vertexCount) (j : Nat) :
    (⟨g.adjacency.modify i (·.push j)⟩ : Graph).edgeCount = g.edgeCount + 1 := by
  obtain ⟨before, targets, after, hlists, -, hmodified⟩ :=
    List.exists_of_modify (fun targets : Array Nat => targets.push j) (l := g.adjacency.toList) hi
  rw [edgeCount_eq_sum, edgeCount_eq_sum, Array.toList_modify, hmodified, hlists]
  simp only [List.map_append, List.map_cons, List.sum_append, List.sum_cons, Array.size_push]
  omega

end Graph

/-! ## The labels and the edge of an addition -/

namespace Addition

variable {V : Type}

/-- The labels that an addition mentions, in the order in which it adds them. -/
def mentions : Addition V → List V
  | vertex v => [v]
  | edge source target => [source, target]

/-- The edge that is added, if it is one. -/
def edge? : Addition V → Option (V × V)
  | vertex _ => none
  | edge source target => some (source, target)

end Addition

namespace LabeledGraph

section Targets

variable {V : Type} [BEq V]

/-- The targets of the listed edges from a label, in order. -/
def targetsFrom (v : V) (edges : List (V × V)) : List V := (edges.filter (·.1 == v)).map (·.2)

theorem targetsFrom_concat (v : V) (edges : List (V × V)) (source target : V) :
    targetsFrom v (edges ++ [(source, target)]) =
      targetsFrom v edges ++ if source == v then [target] else [] := by
  rw [targetsFrom, List.filter_append, List.map_append, targetsFrom]
  cases hv : source == v with
  | false => simp [hv]
  | true => simp [hv]

end Targets

variable {V : Type} [BEq V] [Hashable V]

/-- The numbers of the neighbours of a label; a label that is not there has none. -/
def numbersFrom (g : LabeledGraph V) (v : V) : List Nat :=
  ((g.indexOf? v).bind fun i => g.graph.adjacency[i]?).elim [] Array.toList

/-- The tables of the graph agree, and its edges are the listed ones: every label has the targets of
the edges from it as its neighbours, in order, and there are no further edges. -/
structure Holds (g : LabeledGraph V) (edges : List (V × V)) : Prop where
  consistent : g.Consistent
  neighbors : ∀ v, (targetsFrom v edges).map g.indexOf? = (g.numbersFrom v).map some
  edgeCount : g.edgeCount = edges.length

variable {g : LabeledGraph V} {edges : List (V × V)}

section Steps

variable [EquivBEq V] [LawfulHashable V]

/-- A new label has no neighbours, and neither had it before. -/
theorem Consistent.numbersFrom_addVertex (hg : g.Consistent) (v w : V) :
    (g.addVertex v).numbersFrom w = g.numbersFrom w := by
  cases hv : g.indexOf? v with
  | some i => rw [addVertex_of_found g hv]
  | none =>
      have hindex : (g.addVertex v).indexOf? w =
          if v == w then some g.labels.size else g.indexOf? w := by
        rw [addVertex_of_missing g hv, indexOf?, Std.HashMap.getElem?_insert]
        rfl
      have hlist : ∀ i, (g.addVertex v).graph.adjacency[i]? =
          if i = g.labels.size then some #[] else g.graph.adjacency[i]? := by
        intro i
        rw [addVertex_of_missing g hv, Array.getElem?_push, hg.size_adjacency]
      rw [numbersFrom, numbersFrom, hindex]
      cases hvw : v == w with
      | true =>
          -- The label has no number in `g`, so it has no neighbours there.
          have hnone : g.indexOf? w = none := by
            rw [indexOf?, ← Std.HashMap.getElem?_congr hvw]
            exact hv
          simp [hlist, hnone]
      | false =>
          cases hw : g.indexOf? w with
          | none => simp
          | some i =>
              have hi : i ≠ g.labels.size := hg.vertexCount_eq ▸ Nat.ne_of_lt (hg.indexOf_lt hw)
              simp [hlist, hi]

theorem Holds.addVertex (hg : g.Holds edges) (v : V) : (g.addVertex v).Holds edges where
  consistent := hg.consistent.addVertex v
  neighbors := by
    intro w
    rw [hg.consistent.numbersFrom_addVertex, ← hg.neighbors w]
    -- Every target has a number already, which it keeps.
    apply List.map_congr_left
    intro target htarget
    have hmem : g.indexOf? target ∈ (g.numbersFrom w).map some :=
      hg.neighbors w ▸ List.mem_map_of_mem htarget
    obtain ⟨j, -, hj⟩ := List.mem_map.1 hmem
    rw [← hj]
    exact (Extends.addVertex g v).indexOf target j hj.symm
  edgeCount := by
    rw [← hg.edgeCount]
    cases hv : g.indexOf? v with
    | some i => rw [addVertex_of_found g hv]
    | none =>
        rw [addVertex_of_missing g hv]
        exact g.graph.edgeCount_push_empty

/-- A further neighbour stands at the end of the list of its source, and of no other label. -/
theorem Consistent.numbersFrom_connect (hg : g.Consistent) {source : V} {i j : Nat}
    (hi : g.indexOf? source = some i) {h : LabeledGraph V} (hok : g.connect i j = .ok h) (w : V) :
    h.numbersFrom w = g.numbersFrom w ++ if source == w then [j] else [] := by
  obtain ⟨-, hgrown⟩ := (connect_eq_ok_iff g).1 hok
  have hindex : h.indexOf? w = g.indexOf? w := by
    rw [hgrown]
    rfl
  have hlist : ∀ k, h.graph.adjacency[k]? =
      if i = k then g.graph.adjacency[k]?.map (·.push j) else g.graph.adjacency[k]? := by
    intro k
    rw [hgrown]
    exact Array.getElem?_modify
  rw [numbersFrom, numbersFrom, hindex]
  cases hw : source == w with
  | true =>
      rw [indexOf?, Std.HashMap.getElem?_congr hw] at hi
      have hsize : i < g.graph.adjacency.size := hg.indexOf_lt hi
      rw [indexOf?, hi]
      simp [hlist, Array.getElem?_eq_getElem hsize]
  | false =>
      cases hk : g.indexOf? w with
      | none => simp
      | some k =>
          have hne : i ≠ k := by
            -- One number belongs to one label only.
            rintro rfl
            obtain ⟨a, ha, hsource⟩ := (hg.indexOf_iff source i).1 hi
            obtain ⟨b, hb, hother⟩ := (hg.indexOf_iff w i).1 hk
            cases ha.symm.trans hb
            rw [BEq.trans (BEq.symm hsource) hother] at hw
            cases hw
          simp [hlist, hne]

theorem Holds.connect (hg : g.Holds edges) {source target : V} {i j : Nat}
    (hi : g.indexOf? source = some i) (hj : g.indexOf? target = some j) {h : LabeledGraph V}
    (hok : g.connect i j = .ok h) : h.Holds (edges ++ [(source, target)]) where
  consistent := hg.consistent.connect hok (hg.consistent.indexOf_lt hj)
  neighbors := by
    intro w
    rw [hg.consistent.numbersFrom_connect hi hok, targetsFrom_concat, List.map_append,
      List.map_append]
    -- Connecting two vertices leaves all numbers as they are.
    have hindex : h.indexOf? = g.indexOf? := by
      rw [((connect_eq_ok_iff g).1 hok).2]
      rfl
    rw [hindex, hg.neighbors w]
    cases source == w with
    | false => rfl
    | true => simp [hj]
  edgeCount := by
    rw [List.length_append, ← hg.edgeCount, ((connect_eq_ok_iff g).1 hok).2]
    exact Graph.edgeCount_modify_push (hg.consistent.indexOf_lt hi) j

/-- One addition adds its edge, if it has one, to those that the graph holds. -/
theorem Holds.add (hg : g.Holds edges) {addition : Addition V} {h : LabeledGraph V}
    (hok : g.add addition = .ok h) : h.Holds (edges ++ addition.edge?.toList) := by
  cases addition with
  | vertex v =>
      cases hok
      rw [Addition.edge?, Option.toList_none, List.append_nil]
      exact hg.addVertex v
  | edge source target =>
      obtain ⟨i, j, hi, hj, heq⟩ := addEdge_eq_connect g source target
      exact ((hg.addVertex source).addVertex target).connect hi hj (heq.symm.trans hok)

theorem Holds.addAll (additions : List (Addition V)) :
    ∀ {g h : LabeledGraph V} {edges : List (V × V)}, g.Holds edges → g.addAll additions = .ok h →
      h.Holds (edges ++ additions.filterMap Addition.edge?) := by
  induction additions with
  | nil =>
      intro g h edges hg hok
      cases hok
      rwa [List.filterMap_nil, List.append_nil]
  | cons addition additions ih =>
      intro g h edges hg hok
      rw [addAll_cons] at hok
      obtain ⟨next, hnext, hrest⟩ := bind_eq_ok_iff.1 hok
      have hall := ih (hg.add hnext) hrest
      rw [List.append_assoc] at hall
      cases hedge : addition.edge? with
      | none =>
          rw [hedge] at hall
          rwa [List.filterMap_cons_none hedge]
      | some edge =>
          rw [hedge] at hall
          rwa [List.filterMap_cons_some hedge]

theorem holds_empty : (empty : LabeledGraph V).Holds [] where
  consistent := Consistent.empty
  neighbors := by
    intro v
    simp [targetsFrom, numbersFrom, indexOf?, empty]
  edgeCount := rfl

/-- A graph made by additions holds the edges among them. -/
theorem holds_of_addAll {additions : List (Addition V)} (hok : empty.addAll additions = .ok g) :
    g.Holds (additions.filterMap Addition.edge?) := holds_empty.addAll additions hok

end Steps

/-! ## Neighbours by their labels -/

/-- Labels and targets that have the same numbers are equal one by one. -/
theorem Consistent.beq_of_numbers (hg : g.Consistent) (numbers : List Nat) :
    ∀ {names targets : List V},
    numbers.map g.label = names.map .ok → targets.map g.indexOf? = numbers.map some →
      (names == targets) = true := by
  induction numbers with
  | nil =>
      intro names targets hnames htargets
      cases List.map_eq_nil_iff.1 hnames.symm
      cases List.map_eq_nil_iff.1 htargets
      rfl
  | cons number numbers ih =>
      intro names targets hnames htargets
      obtain ⟨name, names, rfl, hname, hnames⟩ := List.map_eq_cons_iff.1 hnames.symm
      obtain ⟨target, targets, rfl, htarget, htargets⟩ := List.map_eq_cons_iff.1 htargets
      obtain ⟨a, ha, hbeq⟩ := (hg.indexOf_iff target number).1 htarget
      cases hname.trans ha
      show (name == target && names == targets) = true
      rw [hbeq, ih hnames.symm htargets]
      rfl

/-- The neighbours of a label that is there are the targets of the edges from it. -/
theorem Holds.neighborsOf (hg : g.Holds edges) {v : V} {i : Nat} (hi : g.indexOf? v = some i) :
    ∃ names, g.neighborsOf? v = .ok (some names) ∧ (names == targetsFrom v edges) = true := by
  obtain ⟨targets, names, hlist, hfound, hnames⟩ := hg.consistent.neighborsOf_of_found hi
  refine ⟨names, hfound, hg.consistent.beq_of_numbers targets.toList hnames ?_⟩
  rw [hg.neighbors v, numbersFrom, hi, Option.bind_some, hlist, Option.elim_some]

/-! ## Labels in order of first mention -/

section Labels

variable {V : Type} [DecidableEq V] [Hashable V] {g : LabeledGraph V}

/-- A label is added unless it was mentioned before. -/
theorem Consistent.labels_addVertex (hg : g.Consistent) {mentioned : List V}
    (hlabels : g.labels.toList = mentioned.eraseDups) (v : V) :
    (g.addVertex v).labels.toList = (mentioned ++ [v]).eraseDups := by
  have hmem : (∃ i, g.indexOf? v = some i) ↔ v ∈ mentioned := by
    rw [hg.exists_indexOf_iff, ← List.mem_eraseDups, ← hlabels]
    simp
  rw [eraseDups_concat]
  cases hv : g.indexOf? v with
  | some i => rw [addVertex_of_found g hv, if_pos (hmem.1 ⟨i, hv⟩), hlabels]
  | none =>
      have hnew : v ∉ mentioned := by
        rw [← hmem, hv]
        simp
      rw [addVertex_of_missing g hv, if_neg hnew, Array.toList_push, hlabels]

theorem Consistent.labels_add (hg : g.Consistent) {mentioned : List V}
    (hlabels : g.labels.toList = mentioned.eraseDups) {addition : Addition V} {h : LabeledGraph V}
    (hok : g.add addition = .ok h) :
    h.labels.toList = (mentioned ++ addition.mentions).eraseDups := by
  cases addition with
  | vertex v =>
      cases hok
      exact hg.labels_addVertex hlabels v
  | edge source target =>
      obtain ⟨i, j, -, -, heq⟩ := addEdge_eq_connect g source target
      obtain ⟨-, rfl⟩ := (connect_eq_ok_iff _).1 (heq.symm.trans hok)
      have hsource := hg.labels_addVertex hlabels source
      have htarget := (hg.addVertex source).labels_addVertex hsource target
      rwa [List.append_assoc] at htarget

theorem Consistent.labels_addAll (additions : List (Addition V)) :
    ∀ {g h : LabeledGraph V} {mentioned : List V}, g.Consistent →
      g.labels.toList = mentioned.eraseDups → g.addAll additions = .ok h →
        h.labels.toList = (mentioned ++ additions.flatMap Addition.mentions).eraseDups := by
  induction additions with
  | nil =>
      intro g h mentioned _ hlabels hok
      cases hok
      rwa [List.flatMap_nil, List.append_nil]
  | cons addition additions ih =>
      intro g h mentioned hg hlabels hok
      rw [addAll_cons] at hok
      obtain ⟨next, hnext, hrest⟩ := bind_eq_ok_iff.1 hok
      have hconsistent := hg.of_addAll ((addAll_singleton g addition).trans hnext)
      have hall := ih hconsistent (hg.labels_add hlabels hnext) hrest
      rwa [List.append_assoc] at hall

/-- The labels of a graph made by additions are the mentioned ones, in the order in which
they are first mentioned. -/
theorem labels_of_addAll {additions : List (Addition V)} (hok : empty.addAll additions = .ok g) :
    g.labels.toList = (additions.flatMap Addition.mentions).eraseDups :=
  Consistent.labels_addAll additions Consistent.empty (List.eraseDups_nil (α := V)).symm hok

end Labels

end LabeledGraph

end StrongComponents
