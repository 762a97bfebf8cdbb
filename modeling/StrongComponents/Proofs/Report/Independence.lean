import StrongComponents.Proofs.Report.Description
import Mathlib.Data.Finset.Card
import Mathlib.Data.List.Pairwise
import Mathlib.Data.List.Permutation

/-!
# Reports do not depend on the numbering

Two labelled graphs with the same labels and the same edges between labels may number their labels
differently, list neighbours in another order and hold edges more than once. Walks only depend on
the edges between labels (`Alike.mutuallyReachable_iff`), so the reports on both graphs have the
same components up to order (`reports_agree_of_alike`).
-/

set_option autoImplicit false

namespace StrongComponents

namespace LabeledGraph

/-! ## Edges between labels -/

section Labels

variable {V : Type} [BEq V] [Hashable V]

/-- The second label is among the neighbours of the first. -/
def HasEdge (g : LabeledGraph V) (a b : V) :
    Prop := ∃ names, g.neighborsOf? a = .ok (some names) ∧ b ∈ names

/-- Two graphs have the same labels and the same edges between them. -/
structure Alike (g h : LabeledGraph V) : Prop where
  mem_labels : ∀ a, a ∈ g.labels ↔ a ∈ h.labels
  hasEdge : ∀ a b, g.HasEdge a b ↔ h.HasEdge a b

variable {g h : LabeledGraph V}

theorem Alike.symm (hgh : g.Alike h) : h.Alike g :=
  ⟨fun a => (hgh.mem_labels a).symm, fun a b => (hgh.hasEdge a b).symm⟩

/-- The labels of one graph belong to vertices of the other. -/
theorem Alike.exists_label (hgh : g.Alike h) {a : V} {v : Nat} (hv : g.label v = .ok a) :
    ∃ v', h.label v' = .ok a := by
  have hmem : a ∈ h.labels :=
    (hgh.mem_labels a).1 (Array.mem_of_getElem? ((label_eq_ok_iff g).1 hv))
  obtain ⟨v', hlt, rfl⟩ := Array.mem_iff_getElem.1 hmem
  exact ⟨v', (label_eq_ok_iff h).2 (Array.getElem?_eq_getElem hlt)⟩

variable [LawfulBEq V]

namespace Consistent

theorem indexOf_eq_some_iff (hg : g.Consistent) {a : V} {v : Nat} :
    g.indexOf? a = some v ↔ g.label v = .ok a := by
  rw [hg.indexOf_iff]
  constructor
  · rintro ⟨a', hlabel, heq⟩
    rwa [eq_of_beq heq] at hlabel
  · exact fun hlabel => ⟨a, hlabel, BEq.rfl⟩

/-- A label belongs to one vertex. -/
theorem eq_of_label (hg : g.Consistent) {a : V} {u v : Nat} (hu : g.label u = .ok a)
    (hv : g.label v = .ok a) :
    u = v := by
  rw [← hg.indexOf_eq_some_iff] at hu hv
  exact Option.some.inj (hu.symm.trans hv)

/-- Edges between labels are edges between their vertices. -/
theorem hasEdge_iff (hg : g.Consistent) {a b : V} :
    g.HasEdge a b ↔ ∃ u v, g.label u = .ok a ∧ g.label v = .ok b ∧ g.graph.Edge u v := by
  constructor
  · rintro ⟨names, hnames, hb⟩
    cases hindex : g.indexOf? a with
    | none =>
        rw [neighborsOf_of_missing hindex] at hnames
        cases hnames
    | some u =>
        -- The names are the labels of the listed vertices, so a name comes from one of these.
        obtain ⟨targets, names', htargets, hnames', hlabels⟩ := hg.neighborsOf_of_found hindex
        rw [hnames] at hnames'
        cases hnames'
        have hmem : (Except.ok b : Except GraphError V) ∈ targets.toList.map g.label := by
          rw [hlabels]
          exact List.mem_map_of_mem hb
        obtain ⟨v, hv, hlabel⟩ := List.mem_map.1 hmem
        exact ⟨u, v, hg.indexOf_eq_some_iff.1 hindex, hlabel, targets, htargets,
          Array.mem_toList_iff.1 hv⟩
  · rintro ⟨u, v, hu, hv, targets, htargets, hmem⟩
    obtain ⟨targets', names, htargets', hnames, hlabels⟩ :=
      hg.neighborsOf_of_found (hg.indexOf_eq_some_iff.2 hu)
    rw [htargets] at htargets'
    cases htargets'
    refine ⟨names, hnames, ?_⟩
    have hname : (Except.ok b : Except GraphError V) ∈ names.map Except.ok := by
      rw [← hlabels, ← hv]
      exact List.mem_map_of_mem (Array.mem_toList_iff.2 hmem)
    obtain ⟨b', hb', heq⟩ := List.mem_map.1 hname
    cases heq
    exact hb'

end Consistent

theorem HasEdge.mem_labels (hg : g.Consistent) {a b : V} (hab : g.HasEdge a b) : a ∈ g.labels := by
  obtain ⟨u, -, hu, -⟩ := hg.hasEdge_iff.1 hab
  exact Array.mem_of_getElem? ((label_eq_ok_iff g).1 hu)

namespace Alike

/-- Graphs are alike if the neighbours of every label are the same up to order and repetition. -/
theorem of_neighborsOf (hg : g.Consistent) (hh : h.Consistent)
    (hlabels : ∀ a, a ∈ g.labels ↔ a ∈ h.labels)
    (hnames : ∀ a ∈ g.labels, ∃ xs ys, g.neighborsOf? a = .ok (some xs) ∧
      h.neighborsOf? a = .ok (some ys) ∧ ∀ b, b ∈ xs ↔ b ∈ ys) : g.Alike h := by
  refine ⟨hlabels, fun a b => ⟨fun hab => ?_, fun hab => ?_⟩⟩
  · obtain ⟨xs, ys, hxs, hys, hsame⟩ := hnames a (hab.mem_labels hg)
    obtain ⟨names, hnames, hb⟩ := hab
    rw [hxs] at hnames
    cases hnames
    exact ⟨ys, hys, (hsame b).1 hb⟩
  · obtain ⟨xs, ys, hxs, hys, hsame⟩ := hnames a ((hlabels a).2 (hab.mem_labels hh))
    obtain ⟨names, hnames, hb⟩ := hab
    rw [hys] at hnames
    cases hnames
    exact ⟨xs, hxs, (hsame b).2 hb⟩

/-- An edge can be found in the other graph between the vertices with the same labels. -/
theorem edge (hgh : g.Alike h) (hg : g.Consistent) (hh : h.Consistent) {a b : V} {u v u' v' : Nat}
    (hu : g.label u = .ok a) (hv : g.label v = .ok b) (hu' : h.label u' = .ok a)
    (hv' : h.label v' = .ok b) (huv : g.graph.Edge u v) : h.graph.Edge u' v' := by
  have hedge := (hgh.hasEdge a b).1 (hg.hasEdge_iff.2 ⟨u, v, hu, hv, huv⟩)
  obtain ⟨x, y, hx, hy, hxy⟩ := hh.hasEdge_iff.1 hedge
  rwa [hh.eq_of_label hu' hx, hh.eq_of_label hv' hy]

/-- A walk can be followed in the other graph from label to label. -/
theorem reaches (hgh : g.Alike h) (hg : g.Consistent) (hh : h.Consistent) {a b : V}
    {u v u' v' : Nat} (hu : g.label u = .ok a) (hv : g.label v = .ok b) (hu' : h.label u' = .ok a)
    (hv' : h.label v' = .ok b) (huv : g.graph.Reaches u v) : h.graph.Reaches u' v' := by
  induction huv generalizing b v' with
  | refl =>
      rw [hu] at hv
      cases hv
      rw [hh.eq_of_label hu' hv']
      exact .refl
  | tail _ hedge ih =>
      -- The vertex before the last has a label, and the other graph a vertex for it.
      obtain ⟨c, hc⟩ := hg.exists_label hedge.source_lt
      obtain ⟨w', hw'⟩ := hgh.exists_label hc
      exact .tail (ih hc hw') (hgh.edge hg hh hc hv hw' hv' hedge)

theorem mutuallyReachable_iff (hgh : g.Alike h) (hg : g.Consistent) (hh : h.Consistent) {a b : V}
    {u v u' v' : Nat} (hu : g.label u = .ok a) (hv : g.label v = .ok b) (hu' : h.label u' = .ok a)
    (hv' : h.label v' = .ok b) :
    g.graph.MutuallyReachable u v ↔ h.graph.MutuallyReachable u' v' := by
  constructor
  · rintro ⟨huv, hvu⟩
    exact ⟨hgh.reaches hg hh hu hv hu' hv' huv, hgh.reaches hg hh hv hu hv' hu' hvu⟩
  · rintro ⟨huv, hvu⟩
    exact ⟨hgh.symm.reaches hh hg hu' hv' hu hv huv, hgh.symm.reaches hh hg hv' hu' hv hu hvu⟩

/-- Cycles can be followed in the other graph as well. -/
theorem onCycle (hgh : g.Alike h) (hg : g.Consistent) (hh : h.Consistent) {a : V} {v v' : Nat}
    (hv : g.label v = .ok a) (hv' : h.label v' = .ok a) (hcycle : g.graph.OnCycle v) :
    h.graph.OnCycle v' := by
  -- A cycle is an edge and a walk back, and each of them can be followed.
  obtain ⟨w, hedge, hback⟩ := hcycle
  obtain ⟨b, hw⟩ := hg.exists_label (hedge.target_lt hg.wellFormed)
  obtain ⟨w', hw'⟩ := hgh.exists_label hw
  exact ⟨w', hgh.edge hg hh hv hw hv' hw' hedge, hgh.reaches hg hh hw hv hw' hv' hback⟩

end Alike

end Labels

end LabeledGraph

/-! ## Components as sets -/

namespace Report.Describes

variable {V : Type} [BEq V] [Hashable V] [Label V] {g : LabeledGraph V} {r : Report}

/-- Exactly the texts of labels stand in components. -/
theorem exists_component_iff (hr : r.Describes g) {a : String} :
    (∃ c ∈ r.components, a ∈ c) ↔ a ∈ g.texts := by
  rw [← hr.covers.mem_iff, List.mem_flatten]

/-- No text stands twice in the components. -/
theorem nodup_flatten (hr : r.Describes g) :
    r.components.flatten.Nodup := hr.covers.nodup_iff.2 hr.nodup_texts

theorem nodup_component (hr : r.Describes g) {c : List String} (hc : c ∈ r.components) : c.Nodup :=
  (List.nodup_flatten.1 hr.nodup_flatten).1 c hc

/-- A text stands in one component only. -/
theorem component_unique (hr : r.Describes g) {c c' : List String} (hc : c ∈ r.components)
    (hc' : c' ∈ r.components) {a : String} (ha : a ∈ c) (ha' : a ∈ c') : c = c' := by
  by_contra hne
  have hsymm : Std.Symm (List.Disjoint : List String → List String → Prop) := ⟨fun _ _ h => h.symm⟩
  exact (List.nodup_flatten.1 hr.nodup_flatten).2.forall hc hc' hne ha ha'

/-- The component of a text holds the texts that stand together with it. -/
theorem mem_iff_together (hr : r.Describes g) {c : List String} (hc : c ∈ r.components)
    {a b : String} (ha : a ∈ c) :
    b ∈ c ↔ r.Together a b := by
  constructor
  · exact fun hb => ⟨c, hc, ha, hb⟩
  · rintro ⟨c', hc', ha', hb'⟩
    rwa [hr.component_unique hc hc' ha ha']

/-- Different components are different sets. -/
theorem nodup_sets (hr : r.Describes g) : (r.components.map List.toFinset).Nodup := by
  have hinj : ∀ c ∈ r.components, ∀ c' ∈ r.components, c.toFinset = c'.toFinset → c = c' := by
    intro c hc c' hc' hset
    obtain ⟨a, ha⟩ := List.exists_mem_of_ne_nil c fun hnil => hr.nonempty (hnil ▸ hc)
    have ha' : a ∈ c' := by
      rw [← List.mem_toFinset, ← hset, List.mem_toFinset]
      exact ha
    exact hr.component_unique hc hc' ha ha'
  -- As none of them is empty, disjoint lists are different lists.
  have hcomponents : r.components.Nodup := by
    apply (List.nodup_flatten.1 hr.nodup_flatten).2.imp_of_mem
    rintro c c' hc - hdisjoint rfl
    obtain ⟨a, ha⟩ := List.exists_mem_of_ne_nil c fun hnil => hr.nonempty (hnil ▸ hc)
    exact hdisjoint ha ha
  exact hcomponents.map_on hinj

/-- The sizes are those of the sets, and they do not increase. -/
theorem sizes_eq_card (hr : r.Describes g) :
    r.sizes = (r.components.map List.toFinset).map Finset.card := by
  rw [hr.sizes_eq, List.map_map]
  apply List.map_congr_left
  intro c hc
  exact (List.toFinset_card_of_nodup (hr.nodup_component hc)).symm

theorem pairwise_sizes (hr : r.Describes g) : r.sizes.Pairwise (· ≥ ·) := by
  rw [hr.sizes_eq]
  exact Computation.pairwise_sizes_of_ordered hr.ordered

theorem holdsCycle_map_iff {graph : Graph} {vertexOf : String → Nat} {texts : List String} :
    graph.HoldsCycle (texts.map vertexOf) ↔ ∃ a ∈ texts, graph.OnCycle (vertexOf a) := by
  simp [Graph.HoldsCycle]

/-- Whether a component holds a cycle is a property of its set. -/
theorem countP_holdsCycle (r : Report) (g : LabeledGraph V) :
    (r.components.countP fun c => g.graph.HoldsCycle (c.map g.vertexOf)) =
      (r.components.map List.toFinset).countP fun s =>
        g.graph.HoldsCycle (s.toList.map g.vertexOf) := by
  rw [List.countP_map]
  apply List.countP_congr
  intro c _
  simp only [Function.comp_apply, decide_eq_true_iff, holdsCycle_map_iff, Finset.mem_toList,
    List.mem_toFinset]

end Report.Describes

/-! ## Reports on graphs that are alike -/

namespace LabeledGraph.Alike

variable {V : Type} [BEq V] [Hashable V] [Label V] {g h : LabeledGraph V}

theorem mem_texts_iff (hgh : g.Alike h) (text : String) : text ∈ g.texts ↔ text ∈ h.texts := by
  simp only [texts, List.mem_map, Array.mem_toList_iff, hgh.mem_labels]

variable [LawfulBEq V] [LawfulLabel V]

theorem texts_perm (hgh : g.Alike h) (hg : g.Consistent) (hh : h.Consistent) :
    g.texts.Perm h.texts :=
  (List.perm_ext_iff_of_nodup hg.nodup_texts hh.nodup_texts).2 hgh.mem_texts_iff

/-- A text belongs to the same label in both graphs. -/
theorem exists_label_vertexOf (hgh : g.Alike h) (hg : g.Consistent) (hh : h.Consistent)
    {text : String} (htext : text ∈ g.texts) :
    ∃ a, g.label (g.vertexOf text) = .ok a ∧ h.label (h.vertexOf text) = .ok a := by
  obtain ⟨a, ha⟩ := hg.exists_label (hg.vertexOf_lt htext)
  obtain ⟨v', hv'⟩ := hgh.exists_label ha
  have hsame : h.textOf v' = text := by
    rw [Consistent.textOf_of_label hv', ← Consistent.textOf_of_label ha,
      Consistent.textOf_vertexOf htext]
  have hlt : v' < h.graph.vertexCount := by
    rw [hh.vertexCount_eq]
    exact (Array.getElem?_eq_some_iff.1 ((label_eq_ok_iff h).1 hv')).1
  rw [← hsame, hh.vertexOf_textOf hlt, hsame]
  exact ⟨a, ha, hv'⟩

theorem onCycle_vertexOf_iff (hgh : g.Alike h) (hg : g.Consistent) (hh : h.Consistent)
    {text : String} (htext : text ∈ g.texts) :
    g.graph.OnCycle (g.vertexOf text) ↔ h.graph.OnCycle (h.vertexOf text) := by
  obtain ⟨a, ha, ha'⟩ := hgh.exists_label_vertexOf hg hh htext
  exact ⟨hgh.onCycle hg hh ha ha', hgh.symm.onCycle hh hg ha' ha⟩

variable {r r' : Report}

/-- Texts that stand together in one report stand together in the other. -/
theorem together_iff (hgh : g.Alike h) (hg : g.Consistent) (hh : h.Consistent) (hr : r.Describes g)
    (hr' : r'.Describes h) {a b : String} (ha : a ∈ g.texts) (hb : b ∈ g.texts) :
    r.Together a b ↔ r'.Together a b := by
  obtain ⟨x, hx, hx'⟩ := hgh.exists_label_vertexOf hg hh ha
  obtain ⟨y, hy, hy'⟩ := hgh.exists_label_vertexOf hg hh hb
  rw [hr.together_iff a ha b hb,
    hr'.together_iff a ((hgh.mem_texts_iff a).1 ha) b ((hgh.mem_texts_iff b).1 hb)]
  exact hgh.mutuallyReachable_iff hg hh hx hy hx' hy'

/-- Every component of one report is one of the other. -/
theorem exists_component (hgh : g.Alike h) (hg : g.Consistent) (hh : h.Consistent)
    (hr : r.Describes g) (hr' : r'.Describes h) {c : List String} (hc : c ∈ r.components) :
    ∃ c' ∈ r'.components, c.toFinset = c'.toFinset := by
  obtain ⟨a, ha⟩ := List.exists_mem_of_ne_nil c fun hnil => hr.nonempty (hnil ▸ hc)
  have hmem : ∀ {b}, b ∈ c → b ∈ g.texts := fun hb => hr.exists_component_iff.1 ⟨c, hc, hb⟩
  -- The component to compare with is the one that holds the same text in the other report.
  obtain ⟨c', hc', ha'⟩ := hr'.exists_component_iff.2 ((hgh.mem_texts_iff a).1 (hmem ha))
  refine ⟨c', hc', ?_⟩
  ext b
  rw [List.mem_toFinset, List.mem_toFinset]
  constructor
  · intro hb
    rw [hr'.mem_iff_together hc' ha', ← hgh.together_iff hg hh hr hr' (hmem ha) (hmem hb)]
    exact ⟨c, hc, ha, hb⟩
  · intro hb
    have hbg : b ∈ g.texts := (hgh.mem_texts_iff b).2 (hr'.exists_component_iff.1 ⟨c', hc', hb⟩)
    rw [hr.mem_iff_together hc ha, hgh.together_iff hg hh hr hr' (hmem ha) hbg]
    exact ⟨c', hc', ha', hb⟩

theorem sets_perm (hgh : g.Alike h) (hg : g.Consistent) (hh : h.Consistent) (hr : r.Describes g)
    (hr' : r'.Describes h) :
    (r.components.map List.toFinset).Perm (r'.components.map List.toFinset) := by
  rw [List.perm_ext_iff_of_nodup hr.nodup_sets hr'.nodup_sets]
  intro s
  simp only [List.mem_map]
  constructor
  · rintro ⟨c, hc, rfl⟩
    obtain ⟨c', hc', hset⟩ := hgh.exists_component hg hh hr hr' hc
    exact ⟨c', hc', hset.symm⟩
  · rintro ⟨c', hc', rfl⟩
    obtain ⟨c, hc, hset⟩ := hgh.symm.exists_component hh hg hr' hr hc'
    exact ⟨c, hc, hset.symm⟩

theorem sizes_eq (hgh : g.Alike h) (hg : g.Consistent) (hh : h.Consistent) (hr : r.Describes g)
    (hr' : r'.Describes h) : r.sizes = r'.sizes := by
  have hperm : r.sizes.Perm r'.sizes := by
    rw [hr.sizes_eq_card, hr'.sizes_eq_card]
    exact (hgh.sets_perm hg hh hr hr').map _
  -- Both lists are sorted, so their order is settled as well.
  exact hperm.eq_of_pairwise (fun _ _ _ _ hle hge => Nat.le_antisymm hge hle) hr.pairwise_sizes
    hr'.pairwise_sizes

theorem countP_holdsCycle_eq (hgh : g.Alike h) (hg : g.Consistent) (hh : h.Consistent)
    (hr : r.Describes g) (hr' : r'.Describes h) :
    (r.components.countP fun c => g.graph.HoldsCycle (c.map g.vertexOf)) =
      r'.components.countP fun c => h.graph.HoldsCycle (c.map h.vertexOf) := by
  rw [Report.Describes.countP_holdsCycle r g, Report.Describes.countP_holdsCycle r' h,
    (hgh.sets_perm hg hh hr hr').countP_eq]
  apply List.countP_congr
  intro s hs
  obtain ⟨c', hc', rfl⟩ := List.mem_map.1 hs
  have htext : ∀ a ∈ c', a ∈ g.texts := fun a ha =>
    (hgh.mem_texts_iff a).2 (hr'.exists_component_iff.1 ⟨c', hc', ha⟩)
  simp only [decide_eq_true_iff, Report.Describes.holdsCycle_map_iff, Finset.mem_toList,
    List.mem_toFinset]
  apply exists_congr
  intro a
  apply and_congr_right
  intro ha
  exact hgh.onCycle_vertexOf_iff hg hh (htext a ha)

theorem stats_eq (hgh : g.Alike h) (hg : g.Consistent) (hh : h.Consistent) (hr : r.Describes g)
    (hr' : r'.Describes h) : r'.stats = { r.stats with edges := r'.stats.edges } := by
  have hvertices : g.labels.size = h.labels.size := by
    rw [← hg.vertexCount_eq, ← hh.vertexCount_eq, ← hg.length_texts, ← hh.length_texts,
      (hgh.texts_perm hg hh).length_eq]
  rw [hr.stats_eq, hr'.stats_eq, hgh.sizes_eq hg hh hr hr', hvertices,
    hgh.countP_holdsCycle_eq hg hh hr hr']

end LabeledGraph.Alike

/-- Reports on graphs with the same labels and the same edges between labels agree on the components
as sets, on their sizes, on which labels share a leader, and on all counts but that of the edges.
Every label has a leader in both. Lists of edges that are read from a text are among the graphs
meant here (`EdgeList.built_of_parse`). -/
theorem LabeledGraph.reports_agree_of_alike {V : Type} [BEq V] [LawfulBEq V] [Hashable V] [Label V]
    [LawfulLabel V] (g h : LabeledGraph V) (hg : g.Built) (hh : h.Built) (hgh : g.Alike h)
    (supply supply' : Stack.Supply) (strategy strategy' : Strategy) (r r' : Report)
    (hr : (g.compute (·.decompose supply strategy)).2 = .ok r)
    (hr' : (h.compute (·.decompose supply' strategy')).2 = .ok r') :
    r.sizes = r'.sizes ∧
      (r.components.map List.toFinset).Perm (r'.components.map List.toFinset) ∧
      r'.stats = { r.stats with edges := r'.stats.edges } ∧
      ∀ a ∈ g.labels, ∀ b ∈ g.labels, ∃ l m l' m',
        r.leaders[Label.text a]? = some l ∧ r.leaders[Label.text b]? = some m ∧
        r'.leaders[Label.text a]? = some l' ∧ r'.leaders[Label.text b]? = some m' ∧
        (l = m ↔ l' = m') := by
  obtain ⟨d, hdivided, rfl⟩ := hg.exists_divided_of_compute hr
  obtain ⟨d', hdivided', rfl⟩ := hh.exists_divided_of_compute hr'
  have hdescribes := Computation.describes_reportOf hg.consistent hdivided
  have hdescribes' := Computation.describes_reportOf hh.consistent hdivided'
  refine ⟨hgh.sizes_eq hg.consistent hh.consistent hdescribes hdescribes',
    hgh.sets_perm hg.consistent hh.consistent hdescribes hdescribes',
    hgh.stats_eq hg.consistent hh.consistent hdescribes hdescribes', ?_⟩
  intro a ha b hb
  have hmem : ∀ {x : V}, x ∈ g.labels → Label.text x ∈ g.texts := fun hx =>
    List.mem_map_of_mem (Array.mem_toList_iff.2 hx)
  have hmem' : ∀ {x : V}, x ∈ g.labels → Label.text x ∈ h.texts := fun hx =>
    (hgh.mem_texts_iff _).1 (hmem hx)
  obtain ⟨l, hl⟩ := hdescribes.exists_leader (hmem ha)
  obtain ⟨m, hm⟩ := hdescribes.exists_leader (hmem hb)
  obtain ⟨l', hl'⟩ := hdescribes'.exists_leader (hmem' ha)
  obtain ⟨m', hm'⟩ := hdescribes'.exists_leader (hmem' hb)
  refine ⟨l, m, l', m', hl, hm, hl', hm', ?_⟩
  have hshared := hdescribes.leader_eq_iff _ (hmem ha) _ (hmem hb)
  have hshared' := hdescribes'.leader_eq_iff _ (hmem' ha) _ (hmem' hb)
  rw [hl, hm, Option.some.injEq] at hshared
  rw [hl', hm', Option.some.injEq] at hshared'
  rw [hshared, hshared',
    hgh.together_iff hg.consistent hh.consistent hdescribes hdescribes' (hmem ha) (hmem hb)]

/-- One graph is read from lines, with an edge on two of them. The other is described at once, and
numbers its labels differently. -/
theorem LabeledGraph.reports_agree_of_alike_lines :
    ∃ (g h : LabeledGraph String) (r r' : Report),
      EdgeList.parse "c\nb a\nb a\na b\n" = .ok g ∧
      ofAdjacency [("a", ["b"]), ("b", ["a"]), ("c", [])] = .ok h ∧ g.Alike h ∧
      (g.compute (·.decompose Stack.ofAddressSpace .iterative)).2 = .ok r ∧
      (h.compute (·.decompose Stack.ofAddressSpace (.recursive 2))).2 = .ok r' ∧
      r.components = [["b", "a"], ["c"]] ∧ r'.components = [["a", "b"], ["c"]] ∧
        r.sizes = r'.sizes ∧
      (r.components.map List.toFinset).Perm (r'.components.map List.toFinset) ∧
      r'.stats = { r.stats with edges := r'.stats.edges } ∧
      ∃ l m l' m', r.leaders["a"]? = some l ∧ r.leaders["b"]? = some m ∧
        r'.leaders["a"]? = some l' ∧ r'.leaders["b"]? = some m' ∧ (l = m ↔ l' = m') := by
  have hread : (EdgeList.parse "c\nb a\nb a\na b\n").map (fun g =>
      (g.labels, g.neighborsOf? "a", g.neighborsOf? "b", g.neighborsOf? "c",
        (g.compute (·.decompose Stack.ofAddressSpace .iterative)).2.map Report.components)) =
      .ok (#["c", "b", "a"], .ok (some ["b"]), .ok (some ["a", "a"]), .ok (some []),
        .ok [["b", "a"], ["c"]]) := by
    cbv
  have hdescribed : (ofAdjacency [("a", ["b"]), ("b", ["a"]), ("c", [])]).map
    (fun h : LabeledGraph String =>
      (h.labels, h.neighborsOf? "a", h.neighborsOf? "b", h.neighborsOf? "c",
        (h.compute (·.decompose Stack.ofAddressSpace (.recursive 2))).2.map Report.components)) =
      .ok (#["a", "b", "c"], .ok (some ["b"]), .ok (some ["a"]), .ok (some []),
        .ok [["a", "b"], ["c"]]) := by
    cbv
  obtain ⟨g, hg, hg'⟩ := map_eq_ok_iff.1 hread
  obtain ⟨h, hh, hh'⟩ := map_eq_ok_iff.1 hdescribed
  simp only [Prod.mk.injEq, map_eq_ok_iff] at hg' hh'
  obtain ⟨hlabels, ha, hb, hc, r, hr, hcomponents⟩ := hg'
  obtain ⟨hlabels', ha', hb', hc', r', hr', hcomponents'⟩ := hh'
  have hbuilt := EdgeList.built_of_parse hg
  have hbuilt' : h.Built := .ofAdjacency hh
  have halike : g.Alike h := by
    apply Alike.of_neighborsOf hbuilt.consistent hbuilt'.consistent
    · intro a
      simp only [hlabels, hlabels', List.mem_toArray, List.mem_cons, List.not_mem_nil]
      tauto
    · simp only [hlabels, List.mem_toArray, List.forall_mem_cons]
      exact ⟨⟨_, _, hc, hc', by simp⟩, ⟨_, _, hb, hb', by simp⟩, ⟨_, _, ha, ha', by simp⟩, by simp⟩
  obtain ⟨hsizes, hsets, hstats, hleaders⟩ :=
    reports_agree_of_alike g h hbuilt hbuilt' halike _ _ .iterative (.recursive 2) r r' hr hr'
  exact ⟨g, h, r, r', hg, hh, halike, hr, hr', hcomponents, hcomponents', hsizes, hsets, hstats,
    hleaders "a" (by simp [hlabels]) "b" (by simp [hlabels])⟩

end StrongComponents
