import StrongComponents.Proofs.Components.Classes
import StrongComponents.Proofs.Labeled.Texts
import StrongComponents.Report.Compute

/-!
# What a computation reports

On a consistent graph with a decomposition that is divided as it should be, no look-up of the
aggregation fails, and its result can be written down (`aggregate_result`): the components in the
order of their ranking, their members and leaders by texts. The ranking goes by decreasing size, and
components of one size keep the order of their first members (`ranked_pairwise`).
-/

set_option autoImplicit false

namespace StrongComponents

/-! ## Sorting by decreasing size -/

section Stability

variable {α : Type} (size : α → Nat)

theorem size_le_trans (a b c : α) (hab : decide (size b ≤ size a) = true)
    (hbc : decide (size c ≤ size b) = true) :
    decide (size c ≤ size a) = true := by
  simp only [decide_eq_true_eq] at hab hbc ⊢
  omega

theorem size_le_total (a b : α) :
    (decide (size b ≤ size a) || decide (size a ≤ size b)) = true := by
  simp only [Bool.or_eq_true, decide_eq_true_eq]
  omega

/-- Entries of one size keep their order. -/
theorem filter_mergeSort_size (xs : List α) (n : Nat) :
    (xs.mergeSort fun a b => size b ≤ size a).filter (size · == n) = xs.filter (size · == n) := by
  have hequal : (xs.filter (size · == n)).Pairwise fun a b => decide (size b ≤ size a) = true := by
    apply List.pairwise_of_forall_mem_list
    intro a ha b hb
    have hsize := (List.mem_filter.1 ha).2
    have hsize' := (List.mem_filter.1 hb).2
    simp only [beq_iff_eq] at hsize hsize'
    simp [hsize, hsize']
  have hsub : (xs.filter (size · == n)).Sublist (xs.mergeSort fun a b => size b ≤ size a) :=
    List.sublist_mergeSort (size_le_trans size) (size_le_total size) hequal List.filter_sublist
  have hfiltered := hsub.filter (size · == n)
  simp only [List.filter_filter, Bool.and_self] at hfiltered
  -- Sorting neither adds nor removes entries of that size, so the sublist is the whole.
  refine (hfiltered.eq_of_length ?_).symm
  exact ((List.mergeSort_perm xs _).filter _).length_eq.symm

/-- Sorting an ascending list by decreasing size puts the larger before the smaller, and of one size
the earlier before the later. -/
theorem pairwise_mergeSort_size {xs : List Nat} (size : Nat → Nat) (hxs : xs.Pairwise (· < ·)) :
    (xs.mergeSort fun a b => size b ≤ size a).Pairwise fun a b =>
      size b < size a ∨ size b = size a ∧ a < b := by
  have hsorted : (xs.mergeSort fun a b => size b ≤ size a).Pairwise fun a b =>
      decide (size b ≤ size a) = true :=
    List.pairwise_mergeSort (size_le_trans size) (size_le_total size) xs
  rw [List.pairwise_iff_forall_sublist] at hsorted ⊢
  intro a b hab
  have hle := of_decide_eq_true (hsorted hab)
  rcases Nat.lt_or_ge (size b) (size a) with hlt | hge
  · exact .inl hlt
  · have hsize : size b = size a := Nat.le_antisymm hle hge
    refine .inr ⟨hsize, ?_⟩
    -- Both stand among the entries of their size, which keep the order of the list.
    have hpair := hab.filter (size · == size a)
    rw [filter_mergeSort_size] at hpair
    simp only [List.filter_cons, hsize, beq_self_eq_true, if_true, List.filter_nil] at hpair
    exact List.pairwise_iff_forall_sublist.1 (hxs.filter _) hpair

end Stability

namespace Computation

/-- The components in the order of their ranking. -/
def ranked (d : Decomposition) :
    List (Array Nat) := (ranking d).map fun c => d.components[c]?.getD #[]

theorem ranking_perm (d : Decomposition) : (ranking d).Perm (List.range d.components.size) :=
  List.mergeSort_perm _ _

theorem lt_of_mem_ranking {d : Decomposition} {c : Nat} (hc : c ∈ ranking d) :
    c < d.components.size :=
  List.mem_range.1 ((ranking_perm d).mem_iff.1 hc)

/-- Ranking lists every component once. -/
theorem ranked_perm (d : Decomposition) : (ranked d).Perm d.components.toList := by
  have hall : (List.range d.components.size).map (fun c => d.components[c]?.getD #[]) =
      d.components.toList := by
    apply List.ext_getElem
    · simp
    · intro c hc hc'
      have hlt : c < d.components.size := hc'
      simp [hlt]
  rw [← hall]
  exact (ranking_perm d).map _

/-- Larger components are ranked first, and those of one size keep the order of their numbers. -/
theorem ranking_pairwise (d : Decomposition) :
    (ranking d).Pairwise fun a b =>
      (d.components[b]?.getD #[]).size < (d.components[a]?.getD #[]).size ∨
        (d.components[b]?.getD #[]).size = (d.components[a]?.getD #[]).size ∧ a < b := by
  have hsize : ∀ c : Nat, ((d.components[c]?).map Array.size).getD 0 =
      (d.components[c]?.getD #[]).size := by
    intro c
    cases d.components[c]? <;> rfl
  have hranking := pairwise_mergeSort_size (fun c => ((d.components[c]?).map Array.size).getD 0)
    (List.pairwise_lt_range (n := d.components.size))
  simp only [hsize] at hranking
  simp only [ranking, hsize]
  exact hranking

/-- Components are ranked by decreasing size, and those of one size by their first members. -/
theorem ranked_pairwise {g : Graph} {d : Decomposition} (hd : g.Divided d) :
    (ranked d).Pairwise fun c c' => c'.size < c.size ∨ c'.size = c.size ∧
      ∃ u ∈ c, ∀ v ∈ c', u < v := by
  rw [ranked, List.pairwise_map]
  apply (ranking_pairwise d).imp_of_mem
  intro a b ha hb hab
  rcases hab with hlt | ⟨heq, hab⟩
  · exact .inl hlt
  · -- Components are numbered by their first members, and those of one size keep the order of
    -- their numbers.
    have ha' : a < d.components.toList.length := lt_of_mem_ranking ha
    have hb' : b < d.components.toList.length := lt_of_mem_ranking hb
    have hfirst := List.pairwise_iff_getElem.1 hd.ordered a b ha' hb' hab
    refine .inr ⟨heq, ?_⟩
    rw [Array.getElem?_eq_getElem (lt_of_mem_ranking ha),
      Array.getElem?_eq_getElem (lt_of_mem_ranking hb)]
    exact hfirst

/-! ## Look-ups that succeed -/

section LookUps

variable {V : Type} [BEq V] [Hashable V] [Label V] {g : LabeledGraph V} {d : Decomposition}

/-- Every vertex has a text. -/
theorem labelText_eq (hg : g.Consistent) {v : Nat} (hv : v < g.graph.vertexCount) :
    labelText g v = .ok (g.textOf v) := by
  obtain ⟨a, ha⟩ := hg.exists_label hv
  rw [labelText, ha, LabeledGraph.Consistent.textOf_of_label ha]
  rfl

/-- Every component can be announced: its leader is the leader of all its members. -/
theorem exists_announce (hg : g.Consistent) (hd : g.graph.Divided d) {c : Nat} {members : Array Nat}
    (hc : d.components[c]? = some members) :
    ∃ l ∈ members, (∀ v ∈ members, d.leader[v]? = some l) ∧
      announce g d c members =
        .ok (.componentFound (g.textOf l) members.size
          (decide (g.graph.HoldsCycle members.toList))) := by
  have hmem := Array.mem_of_getElem? hc
  have hpos : 0 < members.size := Array.size_pos_iff.2 (hd.nonempty members hmem)
  have hfirst := Array.getElem_mem hpos
  obtain ⟨l, hl, hleader⟩ := hd.leader_mem members hmem members[0] hfirst
  have hflag : d.cyclic[c]? = some (decide (g.graph.HoldsCycle members.toList)) := by
    rw [← Array.getElem?_toList, hd.cyclic, List.getElem?_map, Array.getElem?_toList, hc]
    rfl
  refine ⟨l, hl, ?_, ?_⟩
  · intro v hv
    rw [(hd.leader_eq_iff v (hd.lt_of_mem hmem hv) members[0] (hd.lt_of_mem hmem hfirst)).2
      ((hd.mem_iff members hmem v hv _).1 hfirst), hleader]
  · simp only [announce, bind_eq_ok_iff]
    exact ⟨_, fetch_eq_ok_iff.2 (Array.getElem?_eq_getElem hpos), _, fetch_eq_ok_iff.2 hleader, _,
      labelText_eq hg (hd.lt_of_mem hmem hl), _, fetch_eq_ok_iff.2 hflag, rfl⟩

/-- The members of a component have texts. -/
theorem mapM_labelText (hg : g.Consistent) {vertices : List Nat}
    (hlt : ∀ v ∈ vertices, v < g.graph.vertexCount) :
    vertices.mapM (labelText g) = .ok (vertices.map g.textOf) := by
  rw [mapM_eq_ok_iff, List.map_map]
  apply List.map_congr_left
  intro v hv
  exact labelText_eq hg (hlt v hv)

/-- Describing components gives their sizes and the texts of their members, in the order asked
for. -/
theorem describe_result (hg : g.Consistent) (hd : g.graph.Divided d) (ids : List Nat) :
    (∀ c ∈ ids, c < d.components.size) →
      (describe g d ids).result =
        .ok ⟨ids.map fun c => (d.components[c]?.getD #[]).size,
          ids.map fun c => (d.components[c]?.getD #[]).toList.map g.textOf⟩ := by
  induction ids with
  | nil => exact fun _ => rfl
  | cons c rest ih =>
      intro hids
      have hc := Array.getElem?_eq_getElem (hids c List.mem_cons_self)
      have hmem := Array.mem_of_getElem? hc
      obtain ⟨l, -, -, hannounce⟩ := exists_announce hg hd hc
      have htexts := mapM_labelText hg fun v hv => hd.lt_of_mem hmem (Array.mem_toList_iff.1 hv)
      have hrest := ih fun c' hc' => hids c' (List.mem_cons_of_mem c hc')
      rw [describe, fetch_eq_ok_iff.2 hc]
      simp only [hannounce, htexts, hrest, List.map_cons, hc]
      rfl

/-- The leaders are named in the order of the vertices. -/
theorem leaders_eq (hg : g.Consistent) (ls : List Nat) :
    ∀ v, v + ls.length ≤ g.graph.vertexCount → (∀ l ∈ ls, l < g.graph.vertexCount) →
      leaders g v ls = .ok ((ls.zipIdx v).map fun p => (g.textOf p.2, g.textOf p.1)) := by
  induction ls with
  | nil => exact fun _ _ _ => rfl
  | cons l rest ih =>
      intro v hlength hlt
      rw [List.length_cons] at hlength
      have hrest := ih (v + 1) (by omega) fun l' hl' => hlt l' (List.mem_cons_of_mem l hl')
      simp only [leaders, bind_eq_ok_iff]
      exact ⟨_, labelText_eq hg (by omega), _, labelText_eq hg (hlt l List.mem_cons_self), _, hrest,
        rfl⟩

end LookUps

/-! ## The report -/

section Report

variable {V : Type} [BEq V] [Hashable V] [Label V]

/-- The leaders of the vertices by texts, in the order of the vertices. -/
def namedLeaders (g : LabeledGraph V) (d : Decomposition) : List (String × String) :=
  d.leader.toList.zipIdx.map fun p => (g.textOf p.2, g.textOf p.1)

/-- The report that a decomposition amounts to. -/
def reportOf (g : LabeledGraph V) (d : Decomposition) : Report :=
  assemble g d ⟨(ranked d).map Array.size, (ranked d).map fun c => c.toList.map g.textOf⟩
    (namedLeaders g d)

variable {g : LabeledGraph V} {d : Decomposition}

theorem components_reportOf :
    (reportOf g d).components = (ranked d).map fun c => c.toList.map g.textOf := rfl

theorem leaders_reportOf :
    (reportOf g d).leaders = Std.TreeMap.ofList (namedLeaders g d) compare := rfl

/-- No look-up of the aggregation fails. -/
theorem aggregate_result (hg : g.Consistent) (hd : g.graph.Divided d) :
    (aggregate g d).result = .ok (reportOf g d) := by
  have hdescribed := describe_result hg hd (ranking d) fun c hc => lt_of_mem_ranking hc
  have hleaders : leaders g 0 d.leader.toList = .ok (namedLeaders g d) := by
    apply leaders_eq hg
    · rw [Nat.zero_add, Array.length_toList, hd.leader_size]
    · -- The leader of a vertex is a member of its component, and so a vertex itself.
      intro l hl
      obtain ⟨v, hv⟩ := List.mem_iff_getElem?.1 hl
      rw [Array.getElem?_toList] at hv
      have hlt : v < g.graph.vertexCount := hd.leader_size ▸ (Array.getElem?_eq_some_iff.1 hv).1
      obtain ⟨c, hc, hvc⟩ := hd.mem_flatMap_iff.2 hlt
      obtain ⟨l', hl', hv'⟩ := hd.leader_mem c hc v hvc
      rw [hv] at hv'
      cases hv'
      exact hd.lt_of_mem hc hl'
  simp only [aggregate, bind_eq_ok_iff]
  refine ⟨_, hdescribed, _, hleaders, ?_⟩
  simp only [reportOf, ranked, List.map_map]
  rfl

end Report

end Computation

namespace LabeledGraph

variable {V : Type} [BEq V] [Hashable V] [Label V] {g : LabeledGraph V} {detector : Detector}

/-- The cause of a failed decomposition is the cause of the failed computation. -/
theorem compute_of_failed (detector : Detector) {e : GraphError}
    (hdetected : detector g.graph = .error e) :
    ∃ stages, (g.compute detector).2 = .error ⟨stages, .graph e⟩ := by
  rw [compute, hdetected]
  cases e with
  | indexOutOfBounds => exact ⟨[], rfl⟩
  | _ => exact ⟨[.computing], rfl⟩

/-- There is no report without a decomposition. -/
theorem exists_decomposed_of_compute {r : Report} (h : (g.compute detector).2 = .ok r) :
    ∃ d, detector g.graph = .ok d := by
  cases hdetected : detector g.graph with
  | ok d => exact ⟨d, rfl⟩
  | error e =>
      obtain ⟨stages, hfailed⟩ := compute_of_failed detector hdetected
      rw [h] at hfailed
      cases hfailed

/-- What a computation gives is decided by its decomposition. -/
theorem compute_of_decomposed {d : Decomposition} (hg : g.Consistent) (hd : g.graph.Divided d)
    (hdetected : detector g.graph = .ok d) :
    (g.compute detector).2 = .ok (Computation.reportOf g d) := by
  rw [compute]
  simp only [hdetected, Computation.aggregate_result hg hd]
  rfl

end LabeledGraph

end StrongComponents
