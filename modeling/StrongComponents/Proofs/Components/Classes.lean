import StrongComponents.Proofs.Components.EdgeRelation

/-!
# What a decomposition says of its graph

The components of a decomposition are told apart from the way they are found: every vertex stands in
one component, components are the classes of mutually reachable vertices, their members ascend, and
the components themselves are ordered by their first members. A leader is a member of the component
it leads, and a component is marked as cyclic iff one of its members lies on a closed walk.
`Graph.Divided` collects these facts, and `divided_of_decompose` derives them for every
decomposition. The reports are described from them alone.
-/

set_option autoImplicit false

namespace StrongComponents

/-! ## Members of the groups of a list of leaders -/

namespace Partition

variable {leaders : List Nat}

/-- The positions of a leader are the vertices that have it. -/
theorem mem_idxsOf_iff {l v : Nat} : v ∈ leaders.idxsOf l ↔ leaders[v]? = some l := by
  rw [List.mem_idxsOf_iff_exists_getElem_pos, List.getElem?_eq_some_iff]
  simp only [beq_iff_eq]

/-- A component holds the vertices of one leader. -/
theorem mem_components_iff {leaders : Array Nat} {c : Array Nat} :
    c ∈ (grouped leaders).components ↔ ∃ l ∈ leaders, c = (leaders.toList.idxsOf l).toArray := by
  rw [grouped, List.mem_toArray]
  simp only [members, List.mem_map, List.mem_eraseDups, Array.mem_toList_iff, eq_comm]

theorem toList_components (leaders : Array Nat) :
    (grouped leaders).components.toList = members leaders.toList := by
  rw [grouped]

/-- Every component has a member. -/
theorem nonempty_of_mem_components {leaders : Array Nat} {c : Array Nat}
    (hc : c ∈ (grouped leaders).components) : c ≠ #[] := by
  obtain ⟨l, hl, rfl⟩ := mem_components_iff.1 hc
  obtain ⟨v, hv⟩ := Array.mem_iff_getElem?.1 hl
  rw [← Array.getElem?_toList, ← mem_idxsOf_iff] at hv
  intro hempty
  rw [← List.mem_toArray, hempty] at hv
  exact Array.not_mem_empty v hv

/-- The members of a component ascend. -/
theorem pairwise_of_mem_components {leaders : Array Nat} {c : Array Nat}
    (hc : c ∈ (grouped leaders).components) : c.toList.Pairwise (· < ·) := by
  obtain ⟨l, -, rfl⟩ := mem_components_iff.1 hc
  exact List.pairwise_idxsOf

theorem idxOf_le_of_getElem? {l v : Nat} (h : leaders[v]? = some l) : leaders.idxOf l ≤ v := by
  induction leaders generalizing v with
  | nil => cases h
  | cons k leaders ih =>
      rw [List.idxOf_cons]
      cases v with
      | zero =>
          cases h
          simp
      | succ v =>
          have hrest := ih (List.getElem?_cons_succ ▸ h)
          cases k == l with
          | true => exact Nat.zero_le _
          | false => exact Nat.succ_le_succ hrest

/-- Leaders that occur first earlier are listed earlier. -/
theorem pairwise_eraseDups (leaders : List Nat) :
    leaders.eraseDups.Pairwise fun l m => leaders.idxOf l < leaders.idxOf m := by
  -- The list grows at its end, where a new leader has its first place behind those of all the
  -- others.
  induction leaders using List.reverseRecOn with
  | nil => exact List.Pairwise.nil
  | append_singleton leaders k ih =>
      have hold : leaders.eraseDups.Pairwise fun l m =>
          (leaders ++ [k]).idxOf l < (leaders ++ [k]).idxOf m := by
        apply ih.imp_of_mem
        intro l m hl hm hlt
        rw [List.idxOf_append_of_mem (List.mem_eraseDups.1 hl),
          List.idxOf_append_of_mem (List.mem_eraseDups.1 hm)]
        exact hlt
      rw [eraseDups_concat]
      by_cases hk : k ∈ leaders
      · rw [if_pos hk]
        exact hold
      · rw [if_neg hk, List.pairwise_append]
        refine ⟨hold, List.pairwise_singleton _ _, ?_⟩
        intro l hl m hm
        have hl' := List.mem_eraseDups.1 hl
        rw [List.mem_singleton.1 hm, List.idxOf_append_of_mem hl', List.idxOf_append_of_notMem hk]
        exact Nat.lt_of_lt_of_le (List.idxOf_lt_length_iff.2 hl') (Nat.le_add_right _ _)

/-- Components are listed by their first members. -/
theorem pairwise_components (leaders : Array Nat) :
    (grouped leaders).components.toList.Pairwise fun c c' => ∃ u ∈ c, ∀ v ∈ c', u < v := by
  rw [toList_components, members, List.pairwise_map]
  apply (pairwise_eraseDups leaders.toList).imp_of_mem
  intro l m hl _ hlt
  -- The first place of a leader is the first member of its component.
  refine ⟨leaders.toList.idxOf l, ?_, ?_⟩
  · rw [List.mem_toArray, mem_idxsOf_iff]
    exact List.getElem?_idxOf (List.mem_eraseDups.1 hl)
  · intro v hv
    rw [List.mem_toArray, mem_idxsOf_iff] at hv
    exact Nat.lt_of_lt_of_le hlt (idxOf_le_of_getElem? hv)

/-- Every vertex stands in one component, once. -/
theorem flatMap_components_perm (leaders : Array Nat) :
    ((grouped leaders).components.toList.flatMap Array.toList).Perm (List.range leaders.size) := by
  rw [List.perm_ext_iff_of_nodup]
  · intro v
    simp only [List.mem_flatMap, Array.mem_toList_iff, mem_components_iff, List.mem_range]
    constructor
    · rintro ⟨c, ⟨l, -, rfl⟩, hv⟩
      rw [List.mem_toArray, mem_idxsOf_iff] at hv
      exact (List.getElem?_eq_some_iff.1 hv).1
    · intro hv
      have hl : leaders[v]? = some leaders[v] := Array.getElem?_eq_getElem hv
      refine ⟨_, ⟨leaders[v], Array.mem_of_getElem? hl, rfl⟩, ?_⟩
      rw [List.mem_toArray, mem_idxsOf_iff, Array.getElem?_toList, hl]
  · rw [List.nodup_flatMap]
    constructor
    · intro c hc
      exact (pairwise_of_mem_components (Array.mem_toList_iff.1 hc)).imp Nat.ne_of_lt
    · rw [toList_components, members, List.pairwise_map]
      apply (nodup_eraseDups leaders.toList).imp
      -- A vertex in two components would have two leaders.
      intro l m hne v hl hm
      rw [mem_idxsOf_iff] at hl hm
      rw [hl, Option.some.injEq] at hm
      exact hne hm
  · exact List.nodup_range

end Partition

namespace Graph

/-! ## Cycles within a class -/

/-- A closed walk passes through one of the listed vertices. -/
def HoldsCycle (g : Graph) (members : List Nat) : Prop := ∃ v ∈ members, g.OnCycle v

noncomputable instance (g : Graph) : DecidablePred g.HoldsCycle := Classical.decPred _

section Cycles

variable {g : Graph} {u v : Nat}

/-- A walk between different vertices begins with an edge. -/
theorem Reaches.exists_first (h : g.Reaches u v) : u ≠ v → ∃ w, g.Edge u w ∧ g.Reaches w v := by
  induction h with
  | refl => exact fun hne => absurd rfl hne
  | @tail v w huv he ih =>
      intro _
      -- The walk grows at its end, so its first edge is a new one only if there was none before.
      by_cases hne : u = v
      · subst hne
        exact ⟨w, he, .refl⟩
      · obtain ⟨x, hx, hxv⟩ := ih hne
        exact ⟨x, hx, hxv.tail he⟩

/-- Two different vertices that reach each other lie on a closed walk. -/
theorem MutuallyReachable.onCycle (h : g.MutuallyReachable u v) (hne : u ≠ v) : g.OnCycle u := by
  obtain ⟨w, hw, hwv⟩ := h.1.exists_first hne
  exact ⟨w, hw, hwv.trans h.2⟩

/-- A closed walk stays in the class of its vertices, so in a class of one vertex it is a loop. -/
theorem onCycle_iff_edge_of_alone (halone : ∀ w, g.MutuallyReachable v w → w = v) :
    g.OnCycle v ↔ g.Edge v v := by
  constructor
  · rintro ⟨w, hw, hwv⟩
    rw [halone w ⟨hw.reaches, hwv⟩] at hw
    exact hw
  · exact fun he => ⟨v, he, .refl⟩

/-- Whether a class of mutually reachable vertices is cyclic can be found out, and it is iff it
holds a cycle. -/
theorem isCyclic_eq {c : Array Nat} (hnonempty : c ≠ #[]) (hnodup : c.toList.Nodup)
    (hbound : ∀ v ∈ c, v < g.vertexCount) (hclass : ∀ u ∈ c, ∀ v, v ∈ c ↔ g.MutuallyReachable u v) :
    g.isCyclic c = .ok (decide (g.HoldsCycle c.toList)) := by
  have hmem : ∀ w, w ∈ c ↔ w ∈ c.toList := fun w => Array.mem_toList_iff.symm
  rcases hc : c.toList with _ | ⟨v, _ | ⟨w, rest⟩⟩
  · exact absurd (Array.toList_eq_nil_iff.1 hc) hnonempty
  · -- The only member is on a closed walk iff it has a loop.
    simp only [hc, List.mem_singleton] at hmem
    have hv := (hmem v).2 rfl
    obtain ⟨loop, hloop, hiff⟩ := exists_hasSelfLoop (hbound v hv)
    have hcycle : g.HoldsCycle [v] ↔ loop = true := by
      rw [hiff, ← onCycle_iff_edge_of_alone fun w hw => (hmem w).1 ((hclass v hv w).2 hw)]
      simp [HoldsCycle]
    simp only [isCyclic, hc, hloop, hcycle, Bool.decide_eq_true]
  · -- Any two members reach each other, so there is a way round.
    rw [hc] at hnodup
    have hv : v ∈ c := (hmem v).2 (by simp [hc])
    have hw : w ∈ c := (hmem w).2 (by simp [hc])
    have hne : v ≠ w := fun h => (List.nodup_cons.1 hnodup).1 (h ▸ List.mem_cons_self)
    have hcycle : g.HoldsCycle (v :: w :: rest) :=
      ⟨v, List.mem_cons_self, ((hclass v hv w).1 hw).onCycle hne⟩
    simp only [isCyclic, hc, hcycle, decide_true]

/-- For classes of mutually reachable vertices the marks can be found, and they mark the
classes that hold a cycle. -/
theorem exists_cyclicComponents {components : Array (Array Nat)}
    (hmarks : ∀ c ∈ components, g.isCyclic c = .ok (decide (g.HoldsCycle c.toList))) :
    ∃ cyclic, g.cyclicComponents components = .ok cyclic ∧
      cyclic.toList = components.toList.map fun c => decide (g.HoldsCycle c.toList) := by
  have hlist : components.toList.mapM g.isCyclic =
      .ok (components.toList.map fun c => decide (g.HoldsCycle c.toList)) := by
    rw [mapM_eq_ok_iff, List.map_map]
    apply List.map_congr_left
    intro c hc
    exact hmarks c (Array.mem_toList_iff.1 hc)
  refine ⟨_, ?_, rfl⟩
  rw [cyclicComponents, Array.mapM_eq_mapM_toList, hlist]
  rfl

end Cycles

/-! ## Decompositions -/

/-- What a decomposition says of the graph it belongs to. -/
structure Divided (g : Graph) (d : Decomposition) : Prop where
  /-- Every vertex stands in one component, once. -/
  perm : (d.components.toList.flatMap Array.toList).Perm (List.range g.vertexCount)
  nonempty : ∀ c ∈ d.components, c ≠ #[]
  /-- Members ascend. -/
  ascending : ∀ c ∈ d.components, c.toList.Pairwise (· < ·)
  /-- Components are listed by their first members. -/
  ordered : d.components.toList.Pairwise fun c c' => ∃ u ∈ c, ∀ v ∈ c', u < v
  /-- Components are classes of mutually reachable vertices. -/
  mem_iff : ∀ c ∈ d.components, ∀ u ∈ c, ∀ v, v ∈ c ↔ g.MutuallyReachable u v
  leader_size : d.leader.size = g.vertexCount
  /-- Every vertex has its leader in its own component. -/
  leader_mem : ∀ c ∈ d.components, ∀ u ∈ c, ∃ l ∈ c, d.leader[u]? = some l
  leader_eq_iff : ∀ u < g.vertexCount, ∀ v < g.vertexCount,
    d.leader[u]? = d.leader[v]? ↔ g.MutuallyReachable u v
  /-- The marked components are those that hold a cycle. -/
  cyclic : d.cyclic.toList = d.components.toList.map fun c => decide (g.HoldsCycle c.toList)

namespace Divided

variable {g : Graph} {d : Decomposition}

theorem mem_flatMap_iff (hd : g.Divided d) {v : Nat} :
    (∃ c ∈ d.components, v ∈ c) ↔ v < g.vertexCount := by
  have hmem := hd.perm.mem_iff (a := v)
  simpa only [List.mem_flatMap, Array.mem_toList_iff, List.mem_range] using hmem

theorem lt_of_mem (hd : g.Divided d) {c : Array Nat} (hc : c ∈ d.components) {v : Nat}
    (hv : v ∈ c) :
    v < g.vertexCount :=
  hd.mem_flatMap_iff.1 ⟨c, hc, hv⟩

end Divided

end Graph

namespace Passes.Grown

variable {g r : Graph} {order : List Nat} {passes : Passes} {forward backward : Forest}

theorem mutuallyReachable_leader (h : Grown g order passes r forward backward) {v l : Nat}
    (hl : passes.leader[v]? = some l) : g.MutuallyReachable v l := by
  have hv : v < g.vertexCount := h.leader_size ▸ (Array.getElem?_eq_some_iff.1 hl).1
  obtain ⟨l', -, hleads, hl'⟩ := h.exists_leader hv
  rw [hl] at hl'
  cases hl'
  exact (h.leads_classes.1 l v hleads).symm

/-- The component of a vertex is its class. -/
theorem mem_component_iff (h : Grown g order passes r forward backward) {c : Array Nat}
    (hc : c ∈ (Partition.grouped passes.leader).components) {u v : Nat} (hu : u ∈ c) :
    v ∈ c ↔ g.MutuallyReachable u v := by
  obtain ⟨l, -, rfl⟩ := Partition.mem_components_iff.1 hc
  rw [List.mem_toArray, Partition.mem_idxsOf_iff, Array.getElem?_toList] at hu ⊢
  have hlt : u < g.vertexCount := h.leader_size ▸ (Array.getElem?_eq_some_iff.1 hu).1
  constructor
  · intro hv
    exact (h.mutuallyReachable_leader hu).trans (h.mutuallyReachable_leader hv).symm
  · intro huv
    rw [← (h.leader_eq_iff hlt (huv.2.source_lt hlt)).2 huv, hu]

/-- The leader of a member is a member. -/
theorem exists_leader_mem_component (h : Grown g order passes r forward backward) {c : Array Nat}
    (hc : c ∈ (Partition.grouped passes.leader).components) {u : Nat} (hu : u ∈ c) :
    ∃ l ∈ c, passes.leader[u]? = some l := by
  have hclass : ∀ v, v ∈ c ↔ g.MutuallyReachable u v := fun _ => h.mem_component_iff hc hu
  obtain ⟨l, -, rfl⟩ := Partition.mem_components_iff.1 hc
  rw [List.mem_toArray, Partition.mem_idxsOf_iff, Array.getElem?_toList] at hu
  exact ⟨l, (hclass l).2 (h.mutuallyReachable_leader hu), hu⟩

theorem lt_of_mem_component (h : Grown g order passes r forward backward) {c : Array Nat}
    (hc : c ∈ (Partition.grouped passes.leader).components) {u : Nat} (hu : u ∈ c) :
    u < g.vertexCount := by
  obtain ⟨l, -, hl⟩ := h.exists_leader_mem_component hc hu
  exact h.leader_size ▸ (Array.getElem?_eq_some_iff.1 hl).1

/-- The vertices can be grouped by their leaders, and the groups are as a
decomposition has to have them. -/
theorem exists_divided (h : Grown g order passes r forward backward) :
    ∃ d, Decomposition.ofPasses g passes = .ok d ∧ g.Divided d := by
  let partition := Partition.grouped passes.leader
  -- A component is marked by looking at its members, which are vertices that reach each other.
  obtain ⟨cyclic, hcyclic, hmarks⟩ :=
    Graph.exists_cyclicComponents fun c (hc : c ∈ partition.components) =>
    Graph.isCyclic_eq (Partition.nonempty_of_mem_components hc)
      ((Partition.pairwise_of_mem_components hc).imp Nat.ne_of_lt)
      (fun _ hv => h.lt_of_mem_component hc hv) (fun _ hu _ => h.mem_component_iff hc hu)
  refine ⟨⟨passes.leader, passes.finishTime, partition.componentOf, partition.components, cyclic⟩,
    ?_, ?_⟩
  · rw [Decomposition.ofPasses, Partition.ofLeaders_eq]
    show (g.cyclicComponents partition.components >>= _) = _
    rw [hcyclic]
    rfl
  · exact
      { perm := h.leader_size ▸ Partition.flatMap_components_perm passes.leader
        nonempty := fun _ => Partition.nonempty_of_mem_components
        ascending := fun _ => Partition.pairwise_of_mem_components
        ordered := Partition.pairwise_components passes.leader
        mem_iff := fun _ hc _ hu _ => h.mem_component_iff hc hu
        leader_size := h.leader_size
        leader_mem := fun _ hc _ hu => h.exists_leader_mem_component hc hu
        leader_eq_iff := fun _ hu _ hv => h.leader_eq_iff hu hv
        cyclic := hmarks }

end Passes.Grown

/-- Every decomposition is divided as its graph has to be. -/
theorem Graph.divided_of_decompose {g : Graph} {supply : Stack.Supply} {strategy : Strategy}
    {d : Decomposition}
    (h : g.decompose supply strategy = .ok d ∨
      ∃ order, g.decomposeInOrder supply strategy order = .ok d) : g.Divided d := by
  obtain ⟨order, passes, horder, hrun, hgrouped⟩ := exists_passes_of_decompose h
  obtain ⟨r, forward, backward, hgrown⟩ := Passes.exists_grown horder hrun
  obtain ⟨d', hgrouped', hdivided⟩ := hgrown.exists_divided
  rw [hgrouped] at hgrouped'
  cases hgrouped'
  exact hdivided

end StrongComponents
