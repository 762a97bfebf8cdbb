import StrongComponents.Proofs.Components.Decomposition

/-!
# Leaders, and the components in topological order

The leader of a vertex is the one that the forward pass finished last among the vertices
mutually reachable with it (`Grown.leader_lastFinished`), so each component has exactly
one vertex that leads itself.

A walk whose end has the largest finish time on it can be walked back (`Grown.reaches_of_latest`).
Applied to a walk from leader to leader over an edge between two components, this gives that the
component which the edge leaves has the leader with the larger finish time
(`Grown.leaderFinished_of_edge`), whichever of the two the forward pass entered first. Hence the
vertices that lead themselves, taken in the backward order, list the components in topological
order (`Grown.topological`).
-/

set_option autoImplicit false

namespace StrongComponents

/-- Among the vertices that satisfy `p`, `l` was finished last: all others have smaller times. -/
def LastFinished (times : Array Nat) (p : Nat → Prop) (l : Nat) : Prop :=
  p l ∧ ∃ t, times[l]? = some t ∧ ∀ w, p w → w ≠ l → ∃ s < t, times[w]? = some s

/-- No vertex that satisfies `p` has a time after that of the last one. -/
theorem LastFinished.le {times : Array Nat} {p : Nat → Prop} {l t : Nat}
    (h : LastFinished times p l) (ht : times[l]? = some t) {w : Nat} (hw : p w) :
    ∃ s ≤ t, times[w]? = some s := by
  obtain ⟨-, t', ht', hless⟩ := h
  rw [ht] at ht'
  cases ht'
  by_cases hwl : w = l
  · exact ⟨t, Nat.le_refl t, hwl ▸ ht⟩
  · obtain ⟨s, hs, htime⟩ := hless w hw hwl
    exact ⟨s, Nat.le_of_lt hs, htime⟩

/-- The listed vertices stand for the components, one for each, in topological order:
no component reaches one that is listed before it, so every edge between two
components leads to the later one. -/
structure Graph.TopologicalRoots (g : Graph) (roots : List Nat) : Prop where
  covers : ∀ v < g.vertexCount, ∃ root ∈ roots, g.MutuallyReachable root v
  ordered : roots.Pairwise fun earlier later => ¬ g.Reaches later earlier

namespace Passes

/-- The leader of `v` was finished at time `t`. -/
def LeaderFinished (passes : Passes) (v t : Nat) : Prop :=
  ∃ l, passes.leader[v]? = some l ∧ passes.finishTime[l]? = some t

theorem LeaderFinished.unique {passes : Passes} {v s t : Nat} (hs : passes.LeaderFinished v s)
    (ht : passes.LeaderFinished v t) : s = t := by
  obtain ⟨l, hl, hs⟩ := hs
  obtain ⟨m, hm, ht⟩ := ht
  rw [hl] at hm
  cases hm
  rw [hs] at ht
  exact Option.some.inj ht

/-- The vertices that lead themselves, by their positions in the backward order. -/
def roots (passes : Passes) : List Nat :=
  passes.backwardOrder.toList.filter fun v => passes.leader[v]? == some v

namespace Grown

variable {g r : Graph} {order : List Nat} {passes : Passes} {forward backward : Forest}
  {u v l s t : Nat}

theorem lt_of_leader (h : Grown g order passes r forward backward)
    (hl : passes.leader[v]? = some l) :
    v < g.vertexCount := by
  obtain ⟨hv, -⟩ := Array.getElem?_eq_some_iff.1 hl
  rwa [h.leader_size] at hv

/-- The leader of a vertex was finished last among the vertices mutually reachable with it. -/
theorem leader_lastFinished (h : Grown g order passes r forward backward)
    (hl : passes.leader[v]? = some l) :
    LastFinished passes.finishTime (g.MutuallyReachable v) l := by
  obtain ⟨l', -, hleads, hl'⟩ := h.exists_leader (h.lt_of_leader hl)
  rw [hl] at hl'
  cases hl'
  obtain ⟨after, hforward⟩ := h.explores
  obtain ⟨after', hbackward⟩ := h.explores_back
  obtain ⟨front, back, hpost, hclass⟩ :=
    Graph.leads_last (fun x y => Graph.edge_of_reversed h.wellFormed h.reversed) hforward hbackward
      h.backwardState hleads
  have hfinished := h.finished
  rw [hpost] at hfinished
  obtain ⟨htime, hfront, -⟩ := hfinished.time_of_split
  have hlv := h.leads_classes.1 l v hleads
  refine ⟨hlv.symm, front.length + 1, htime, ?_⟩
  intro w hw hne
  exact hfront w ((hclass w (hlv.trans hw)).resolve_right hne)

/-- Each vertex has a leader that was finished at some time. -/
theorem exists_leaderFinished (h : Grown g order passes r forward backward)
    (hv : v < g.vertexCount) :
    ∃ t, passes.LeaderFinished v t := by
  obtain ⟨l, -, -, hl⟩ := h.exists_leader hv
  obtain ⟨-, t, ht, -⟩ := h.leader_lastFinished hl
  exact ⟨t, l, hl, ht⟩

/-- A leader leads itself. -/
theorem leader_leader (h : Grown g order passes r forward backward)
    (hl : passes.leader[v]? = some l) :
    passes.leader[l]? = some l := by
  have hv := h.lt_of_leader hl
  have hvl := (h.leader_lastFinished hl).1
  rw [← hl]
  exact (h.leader_eq_iff (hvl.2.source_lt hv) hv).2 hvl.symm

/-- A walk on which no vertex has a time after that of its end can be walked back. -/
theorem reaches_of_latest (h : Grown g order passes r forward backward)
    (ht : passes.finishTime[v]? = some t)
    (hwalk : g.ReachesWithin (fun y => ∃ s ≤ t, passes.finishTime[y]? = some s) u v) :
    g.Reaches v u := by
  have hmem : ∀ {y s}, passes.finishTime[y]? = some s → y ∈ forward.postorder := by
    intro y s hy
    obtain ⟨hlt, -⟩ := Array.getElem?_eq_some_iff.1 hy
    rw [h.times_size] at hlt
    exact h.postorder_perm.mem_iff.2 (List.mem_range.2 hlt)
  obtain ⟨front, back, hpost⟩ := List.append_of_mem (hmem ht)
  have hfinished := h.finished
  rw [hpost] at hfinished
  obtain ⟨htime, -, hback⟩ := hfinished.time_of_split
  rw [ht, Option.some.injEq] at htime
  obtain ⟨after, hforward⟩ := h.explores
  apply hforward.reaches_of_last hpost
  apply hwalk.mono
  rintro y ⟨s, hs, hy⟩
  have hplace := hmem hy
  rw [hpost, List.mem_append, List.mem_cons] at hplace
  rcases hplace with hplace | hplace | hplace
  · exact .inl hplace
  · exact .inr hplace
  · -- What was finished after the end of the walk has a larger time.
    obtain ⟨s', hs', hy'⟩ := hback y hplace
    rw [hy, Option.some.injEq] at hy'
    omega

/-- Along an edge the time of the leader does not grow, and it stays the same only inside a
component. -/
theorem leaderFinished_of_edge (h : Grown g order passes r forward backward) (he : g.Edge u v) :
    ∃ s t, passes.LeaderFinished u s ∧ passes.LeaderFinished v t ∧ t ≤ s ∧
      (s = t ↔ g.MutuallyReachable u v) := by
  have hu := he.source_lt
  have hv := he.target_lt h.wellFormed
  obtain ⟨s, l, hl, hs⟩ := h.exists_leaderFinished hu
  obtain ⟨t, m, hm, ht⟩ := h.exists_leaderFinished hv
  have hlast := h.leader_lastFinished hl
  have hlast' := h.leader_lastFinished hm
  refine ⟨s, t, ⟨l, hl, hs⟩, ⟨m, hm, ht⟩, ?_⟩
  by_cases huv : g.MutuallyReachable u v
  · have hleaders := (h.leader_eq_iff hu hv).2 huv
    have hst := LeaderFinished.unique ⟨l, hleaders ▸ hl, hs⟩ ⟨m, hm, ht⟩
    exact ⟨Nat.le_of_eq hst.symm, fun _ => huv, fun _ => hst⟩
  · have hlt : t < s := by
      rcases Nat.lt_or_ge t s with hlt | hge
      · exact hlt
      · -- Else the leader of `v` is last on a walk from leader to leader, and walks it back.
        have hfirst : g.ReachesWithin (fun y => ∃ s ≤ t, passes.finishTime[y]? = some s) l u := by
          refine (hlast.1.2.within_class hlast.1.1).mono fun y hy => ?_
          obtain ⟨s', hs', hy'⟩ := hlast.le hs (hlast.1.trans hy)
          exact ⟨s', Nat.le_trans hs' hge, hy'⟩
        have hsecond : g.ReachesWithin (fun y => ∃ s ≤ t, passes.finishTime[y]? = some s) v m :=
          (hlast'.1.1.within_class hlast'.1.2).mono fun y hy => hlast'.le ht hy
        have hback := h.reaches_of_latest ht ((hfirst.tail he hsecond.source).trans hsecond)
        have hvu := hlast'.1.1.trans (hback.trans hlast.1.2)
        exact absurd ⟨he.reaches, hvu⟩ huv
    refine ⟨Nat.le_of_lt hlt, fun hst => ?_, fun hmutual => absurd hmutual huv⟩
    exact absurd hst (Nat.ne_of_gt hlt)

/-- Along a walk the time of the leader does not grow. -/
theorem leaderFinished_le_of_reaches (h : Grown g order passes r forward backward)
    (hs : passes.LeaderFinished u s) (huv : g.Reaches u v) :
    ∀ {t}, passes.LeaderFinished v t → t ≤ s := by
  induction huv with
  | refl => exact fun ht => Nat.le_of_eq (ht.unique hs)
  | tail _ he ih =>
      intro t ht
      obtain ⟨s', t', hs', ht', hle, -⟩ := h.leaderFinished_of_edge he
      rw [ht.unique ht']
      exact Nat.le_trans hle (ih hs')

/-- In the backward order the finish times decrease. -/
theorem backwardOrder_pairwise (h : Grown g order passes r forward backward) :
    passes.backwardOrder.toList.Pairwise fun a b =>
      ∃ s t, passes.finishTime[a]? = some s ∧ passes.finishTime[b]? = some t ∧ t < s := by
  have hlength : passes.backwardOrder.toList.length = g.vertexCount := by
    rw [h.backwardOrder_eq, List.length_reverse]
    simpa using h.postorder_perm.length_eq
  rw [List.pairwise_iff_getElem]
  intro i j hi hj hij
  have hai : passes.backwardOrder[i]? = some passes.backwardOrder.toList[i] := by
    rw [← Array.getElem?_toList, List.getElem?_eq_getElem hi]
  have haj : passes.backwardOrder[j]? = some passes.backwardOrder.toList[j] := by
    rw [← Array.getElem?_toList, List.getElem?_eq_getElem hj]
  exact ⟨_, _, h.time_of_backwardOrder hai, h.time_of_backwardOrder haj, by omega⟩

/-- The vertices that lead themselves are the leaders. -/
theorem mem_roots_iff (h : Grown g order passes r forward backward) :
    l ∈ passes.roots ↔ l ∈ passes.leader := by
  rw [roots, List.mem_filter, h.backwardOrder_eq, List.mem_reverse, h.postorder_perm.mem_iff,
    List.mem_range, beq_iff_eq]
  constructor
  · rintro ⟨-, hl⟩
    exact Array.mem_of_getElem? hl
  · intro hl
    obtain ⟨v, hv⟩ := Array.mem_iff_getElem?.1 hl
    have hself := h.leader_leader hv
    exact ⟨h.lt_of_leader hself, hself⟩

/-- In the backward order, the vertices that lead themselves list the components in topological
order. -/
theorem topological (h : Grown g order passes r forward backward) :
    g.TopologicalRoots passes.roots where
  covers := by
    intro v hv
    obtain ⟨l, -, -, hl⟩ := h.exists_leader hv
    exact ⟨l, h.mem_roots_iff.2 (Array.mem_of_getElem? hl), (h.leader_lastFinished hl).1.symm⟩
  ordered := by
    rw [roots, List.pairwise_filter]
    refine h.backwardOrder_pairwise.imp ?_
    rintro a b ⟨s, t, hs, ht, hlt⟩ ha hb hreaches
    -- Both lead themselves, so their own times are those of their leaders, which no walk raises.
    rw [beq_iff_eq] at ha hb
    have hle := h.leaderFinished_le_of_reaches ⟨b, hb, ht⟩ hreaches ⟨a, ha, hs⟩
    omega

end Grown

end Passes

namespace Graph

/-- Passes that succeed have grown their two forests. -/
theorem exists_grown_of_passesInOrder {g : Graph} {supply : Stack.Supply} {strategy : Strategy}
    {order : List Nat} {passes : Passes} (h : g.passesInOrder supply strategy order = .ok passes) :
    ∃ r forward backward, Passes.Grown g order passes r forward backward := by
  obtain ⟨horder, hrun⟩ := runInPlace_of_passesInOrder h
  exact Passes.exists_grown horder hrun

/-- For every graph, order and strategy with which the passes succeed, the leader of a vertex is the
one finished last among the vertices mutually reachable with it. It leads itself, and no other
vertex of the component does. -/
theorem passesInOrder_leader_lastFinished (g : Graph) (supply : Stack.Supply) (strategy : Strategy)
    (order : List Nat) (passes : Passes) (h : g.passesInOrder supply strategy order = .ok passes) :
    ∀ v < g.vertexCount, ∃ l, passes.leader[v]? = some l ∧
      LastFinished passes.finishTime (g.MutuallyReachable v) l ∧ passes.leader[l]? = some l ∧
      ∃! w, g.MutuallyReachable v w ∧ passes.leader[w]? = some w := by
  obtain ⟨r, forward, backward, hgrown⟩ := exists_grown_of_passesInOrder h
  intro v hv
  obtain ⟨l, -, -, hl⟩ := hgrown.exists_leader hv
  have hlast := hgrown.leader_lastFinished hl
  have hself := hgrown.leader_leader hl
  refine ⟨l, hl, hlast, hself, l, ⟨hlast.1, hself⟩, ?_⟩
  rintro w ⟨hvw, hw⟩
  -- A vertex of the component has the leader of `v`, so it can lead itself only if it is that
  -- leader.
  have hleaders := (hgrown.leader_eq_iff hv (hgrown.lt_of_leader hw)).2 hvw
  rw [hl, hw] at hleaders
  exact (Option.some.inj hleaders).symm

/-- A cycle `0 → 1 → 2 → 0` entered at `1`, with an edge to `3`: the leader of the cycle is
`1`, finished at time `4`. -/
theorem passesInOrder_leader_lastFinished_cycle :
    ∃ passes,
      (⟨#[#[1], #[2, 3], #[0], #[]]⟩ : Graph).passesInOrder Stack.ofAddressSpace (.recursive 3)
        [1, 3, 0, 2] = .ok passes ∧
      passes.finishTime = #[1, 4, 2, 3] ∧
      LastFinished passes.finishTime
        ((⟨#[#[1], #[2, 3], #[0], #[]]⟩ : Graph).MutuallyReachable 0) 1 := by
  have hrun : (⟨#[#[1], #[2, 3], #[0], #[]]⟩ : Graph).passesInOrder Stack.ofAddressSpace
    (.recursive 3) [1, 3, 0, 2] = .ok ⟨#[1, 4, 2, 3], #[1, 3, 2, 0], #[1, 1, 1, 3]⟩ := by cbv
  obtain ⟨l, hl, hlast, -⟩ := passesInOrder_leader_lastFinished _ _ _ _ _ hrun 0 (by decide)
  cases hl
  exact ⟨_, hrun, rfl, hlast⟩

/-- For every graph, order and strategy with which the passes succeed, and for every edge, the
leader of its source was finished no earlier than the leader of its target, and at the same time
exactly if the two ends are in one component. So the leaders, by their positions in the backward
order, list the components in topological order. -/
theorem passesInOrder_components_topological (g : Graph) (supply : Stack.Supply)
    (strategy : Strategy) (order : List Nat) (passes : Passes)
    (h : g.passesInOrder supply strategy order = .ok passes) :
    (∀ u v, g.Edge u v → ∃ s t, passes.LeaderFinished u s ∧ passes.LeaderFinished v t ∧ t ≤ s ∧
      (s = t ↔ g.MutuallyReachable u v)) ∧
    (∀ l, l ∈ passes.roots ↔ l ∈ passes.leader) ∧ g.TopologicalRoots passes.roots := by
  obtain ⟨r, forward, backward, hgrown⟩ := exists_grown_of_passesInOrder h
  exact ⟨fun u v he => hgrown.leaderFinished_of_edge he, fun l => hgrown.mem_roots_iff,
    hgrown.topological⟩

/-- Two cycles with an edge from the one to the other, the second one entered first. -/
theorem passesInOrder_components_topological_cycles :
    ∃ passes,
      (⟨#[#[1], #[0, 2], #[3], #[2]]⟩ : Graph).passesInOrder Stack.ofAddressSpace .iterative
        [2, 0, 1, 3] = .ok passes ∧
      passes.roots = [0, 2] ∧
      (⟨#[#[1], #[0, 2], #[3], #[2]]⟩ : Graph).TopologicalRoots [0, 2] := by
  have hrun : (⟨#[#[1], #[0, 2], #[3], #[2]]⟩ : Graph).passesInOrder Stack.ofAddressSpace
    .iterative [2, 0, 1, 3] = .ok ⟨#[4, 3, 2, 1], #[0, 1, 2, 3], #[0, 0, 2, 2]⟩ := by cbv
  obtain ⟨-, -, htopological⟩ := passesInOrder_components_topological _ _ _ _ _ hrun
  exact ⟨_, hrun, rfl, htopological⟩

end Graph

end StrongComponents
