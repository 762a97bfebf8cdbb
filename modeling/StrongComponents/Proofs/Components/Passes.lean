import StrongComponents.Proofs.Components.FinishTimes
import StrongComponents.Proofs.Components.Leaders
import StrongComponents.Proofs.Graph.Reversal

/-!
# What the two passes find

`Passes.Grown` says how the numbers that the passes return belong to the two forests that they grow,
and `exists_grown` that they do so whenever the passes succeed, by either strategy. All that is
proved about finish times, backward orders and leaders rests on it.

`passesInOrder_iterative_outcome` is the exact success condition of the worklist passes:
they succeed iff the graph is well-formed, and otherwise the forward pass stops at a
neighbour that names no vertex.
-/

set_option autoImplicit false

namespace StrongComponents

/-! ## Forests that hold all vertices -/

/-- A forest grown from all vertices with nothing explored before holds every vertex once. -/
theorem Graph.Explores.vertices_perm {g : Graph} {order : List Nat} {forest : Forest}
    {after : Array Bool} {n : Nat} (h : g.Explores (Array.replicate n false) order forest after)
    (horder : order.Perm (List.range n)) : forest.vertices.Perm (List.range n) := by
  rw [List.perm_ext_iff_of_nodup h.vertices_nodup List.nodup_range]
  intro x
  constructor
  · intro hx
    obtain ⟨hlt, -⟩ := Array.getElem?_eq_some_iff.1 (h.unexplored_of_mem x hx)
    simpa using hlt
  · intro hx
    have hexplored := h.targets_explored x (horder.mem_iff.2 hx)
    have hlt := List.mem_range.1 hx
    exact h.mem_of_explored (by simp [hlt]) hexplored

/-- A graph all of whose vertices were entered is well-formed: every neighbour has been looked
up. -/
theorem Graph.Explores.wellFormed {g : Graph} {order : List Nat} {forest : Forest}
    {after : Array Bool} (h : g.Explores (Array.replicate g.vertexCount false) order forest after)
    (hvertices : forest.vertices.Perm (List.range g.vertexCount)) : g.WellFormed := by
  intro targets htargets v hv
  obtain ⟨u, hu⟩ := Array.mem_iff_getElem?.1 htargets
  have hedge : g.Edge u v := ⟨targets, hu, hv⟩
  have hentered : u ∈ forest.vertices := hvertices.mem_iff.2 (List.mem_range.2 hedge.source_lt)
  obtain ⟨hlt, -⟩ := Array.getElem?_eq_some_iff.1 (h.neighbors_explored hentered hedge)
  rw [h.size_eq, Array.size_replicate] at hlt
  exact hlt

namespace Passes

/-! ## Single passes -/

/-- A forward pass over all vertices that succeeds has grown a forest of all vertices, numbered them
in postorder, and met no stray neighbour. -/
theorem exists_forest_of_forward {g : Graph} {strategy : Strategy} {order : List Nat}
    {times : Array Nat} (horder : order.Perm (List.range g.vertexCount))
    (h : forward g strategy order = .ok times) :
    ∃ forest after, g.Explores (Array.replicate g.vertexCount false) order forest after ∧
      forest.vertices.Perm (List.range g.vertexCount) ∧ g.WellFormed ∧
      times.size = g.vertexCount ∧ Finished times forest.postorder := by
  rw [forward] at h
  cases hsweep : forwardSweep g strategy order with
  | error interrupted => simp [hsweep] at h
  | ok final =>
      simp only [hsweep, Except.ok.injEq] at h
      subst h
      obtain ⟨forest, hexplores, hrecord⟩ := Graph.explores_of_sweep hsweep
      have hperm := hexplores.vertices_perm horder
      have hbound : ∀ v ∈ forest.postorder, v < (Array.replicate g.vertexCount 0).size := by
        intro v hv
        rw [Array.size_replicate]
        exact List.mem_range.1 (hperm.mem_iff.1 (forest.postorder_perm.mem_iff.1 hv))
      rw [Forest.replayRooted_const] at hrecord
      rw [hrecord]
      refine ⟨forest, final.explored, hexplores, hperm, hexplores.wellFormed hperm, ?_,
        FinishClock.finished_replay hexplores.postorder_nodup hbound⟩
      rw [FinishClock.replay_visits, FinishClock.size_replay_finish]
      exact Array.size_replicate

/-- A backward pass over all vertices that succeeds has grown a forest of all vertices and
noted the roots of its trees. -/
theorem exists_forest_of_backward {r : Graph} {strategy : Strategy} {order : List Nat}
    {leader : Array Nat} (horder : order.Perm (List.range r.vertexCount))
    (h : backward r strategy order = .ok leader) :
    ∃ forest after, r.Explores (Array.replicate r.vertexCount false) order forest after ∧
      forest.vertices.Perm (List.range r.vertexCount) ∧ leader.size = r.vertexCount ∧
      ∀ l x, x < r.vertexCount → forest.Leads l x → leader[x]? = some l := by
  rw [backward] at h
  cases hsweep : backwardSweep r strategy order with
  | error interrupted => simp [hsweep] at h
  | ok final =>
      simp only [hsweep, Except.ok.injEq] at h
      subst h
      obtain ⟨forest, hexplores, hrecord⟩ := Graph.explores_of_sweep hsweep
      rw [hrecord]
      refine ⟨forest, final.explored, hexplores, hexplores.vertices_perm horder, ?_, ?_⟩
      · rw [Forest.size_replayRooted_leader]
        exact Array.size_replicate
      · intro l x hx hleads
        apply forest.leader_of_leads hexplores.vertices_nodup _ hleads
        show x < (Array.replicate r.vertexCount noLeader).size
        rw [Array.size_replicate]
        exact hx

/-! ## Both passes -/

/-- The passes succeed with what the forward pass, the order by finish time, the reversal and the
backward pass yield in turn. -/
theorem runInPlace_eq_ok_iff {g : Graph} {strategy : Strategy} {order : List Nat}
    {passes : Passes} :
    runInPlace g strategy order = .ok passes ↔
      forward g strategy order = .ok passes.finishTime ∧
        byDecreasingFinish passes.finishTime = .ok passes.backwardOrder ∧
        ∃ r, g.reversed = .ok r ∧
          backward r strategy passes.backwardOrder.toList = .ok passes.leader := by
  simp only [runInPlace, bind_eq_ok_iff]
  constructor
  · rintro ⟨times, hforward, backwardOrder, hplaced, r, hreversed, leader, hbackward, hpasses⟩
    cases hpasses
    exact ⟨hforward, hplaced, r, hreversed, hbackward⟩
  · rintro ⟨hforward, hplaced, r, hreversed, hbackward⟩
    exact ⟨_, hforward, _, hplaced, r, hreversed, _, hbackward, rfl⟩

/-- How the results of the passes belong to a graph, to its reversal and to the
forests of the two passes. -/
structure Grown (g : Graph) (order : List Nat) (passes : Passes) (r : Graph)
    (forward backward : Forest) : Prop where
  wellFormed : g.WellFormed
  reversed : g.reversed = .ok r
  explores : ∃ after, g.Explores (Array.replicate g.vertexCount false) order forward after
  postorder_perm : forward.postorder.Perm (List.range g.vertexCount)
  times_size : passes.finishTime.size = g.vertexCount
  finished : Finished passes.finishTime forward.postorder
  backwardOrder_eq : passes.backwardOrder.toList = forward.postorder.reverse
  explores_back : ∃ after,
    r.Explores (Array.replicate g.vertexCount false) forward.postorder.reverse backward after
  vertices_perm : backward.vertices.Perm (List.range g.vertexCount)
  leader_size : passes.leader.size = g.vertexCount
  leader_eq : ∀ l x, x < g.vertexCount → backward.Leads l x → passes.leader[x]? = some l

/-- Passes over all vertices that succeed have grown their two forests. -/
theorem exists_grown {g : Graph} {strategy : Strategy} {order : List Nat} {passes : Passes}
    (horder : order.Perm (List.range g.vertexCount))
    (h : runInPlace g strategy order = .ok passes) :
    ∃ r forward backward, Grown g order passes r forward backward := by
  obtain ⟨hforward, hplaced, r, hreversed, hbackward⟩ := runInPlace_eq_ok_iff.1 h
  obtain ⟨first, after, hfirst, hvertices, hg, hsize, hfinished⟩ :=
    exists_forest_of_forward horder hforward
  -- The forward pass has shown the graph to be well-formed, so the order and the
  -- reversal are the expected ones.
  have hpost := first.postorder_perm.trans hvertices
  obtain ⟨placed, hplaced', hplacedEq⟩ := hfinished.byDecreasingFinish_eq hpost hsize
  rw [hplaced] at hplaced'
  cases hplaced'
  obtain ⟨r', hr', hcount, -⟩ := Graph.exists_reversed hg
  rw [hreversed] at hr'
  cases hr'
  have hback : passes.backwardOrder.toList.Perm (List.range r.vertexCount) := by
    rw [hplacedEq, hcount]
    exact (List.reverse_perm _).trans hpost
  obtain ⟨second, after', hsecond, hvertices', hleaders, hleads⟩ :=
    exists_forest_of_backward hback hbackward
  rw [hcount] at hsecond hvertices' hleaders hleads
  rw [hplacedEq] at hsecond
  exact ⟨r, first, second, hg, hreversed, ⟨after, hfirst⟩, hpost, hsize, hfinished, hplacedEq,
    ⟨after', hsecond⟩, hvertices', hleaders, hleads⟩

namespace Grown

variable {g r : Graph} {order : List Nat} {passes : Passes} {forward backward : Forest}

/-- Every vertex has a leader, which is a vertex and leads it. -/
theorem exists_leader (h : Grown g order passes r forward backward) {v : Nat}
    (hv : v < g.vertexCount) :
    ∃ l < g.vertexCount, backward.Leads l v ∧ passes.leader[v]? = some l := by
  obtain ⟨l, hl, hleads⟩ :=
    backward.exists_leads v (h.vertices_perm.mem_iff.2 (List.mem_range.2 hv))
  exact ⟨l, List.mem_range.1 (h.vertices_perm.mem_iff.1 hl), hleads, h.leader_eq l v hv hleads⟩

theorem leader_lt (h : Grown g order passes r forward backward) :
    ∀ l ∈ passes.leader, l < g.vertexCount := by
  intro l hl
  obtain ⟨v, hv⟩ := Array.mem_iff_getElem?.1 hl
  obtain ⟨hlt, -⟩ := Array.getElem?_eq_some_iff.1 hv
  rw [h.leader_size] at hlt
  obtain ⟨l', hl', -, heq⟩ := h.exists_leader hlt
  rw [hv] at heq
  cases heq
  exact hl'

/-- The vertex at position `i` of the backward order was finished at time `n - i`. -/
theorem time_of_backwardOrder (h : Grown g order passes r forward backward) {i v : Nat}
    (hv : passes.backwardOrder[i]? = some v) :
    passes.finishTime[v]? = some (g.vertexCount - i) := by
  have hlength : forward.postorder.length = g.vertexCount := by
    simpa using h.postorder_perm.length_eq
  rw [← Array.getElem?_toList, h.backwardOrder_eq] at hv
  obtain ⟨hi, -⟩ := List.getElem?_eq_some_iff.1 hv
  rw [List.length_reverse] at hi
  rw [List.getElem?_reverse hi] at hv
  have htime := h.finished _ v hv
  rw [show forward.postorder.length - 1 - i + 1 = g.vertexCount - i by omega] at htime
  exact htime

/-- The vertex finished at time `t` stands at position `n - t` of the backward order. -/
theorem exists_time (h : Grown g order passes r forward backward) {v : Nat}
    (hv : v < g.vertexCount) :
    ∃ t, passes.finishTime[v]? = some t ∧ 1 ≤ t ∧ t ≤ g.vertexCount ∧
      passes.backwardOrder[g.vertexCount - t]? = some v := by
  have hlength : forward.postorder.length = g.vertexCount := by
    simpa using h.postorder_perm.length_eq
  obtain ⟨i, hi, hpost, htime⟩ := h.finished.exists_time h.postorder_perm hv
  refine ⟨i + 1, htime, by omega, by omega, ?_⟩
  rw [← Array.getElem?_toList, h.backwardOrder_eq, List.getElem?_reverse (by omega),
    show forward.postorder.length - 1 - (g.vertexCount - (i + 1)) = i by omega]
  exact hpost

end Grown

/-! ## Success of the worklist passes -/

theorem forwardSweep_endsOrStrays {g : Graph} {order : List Nat}
    (horder : order.Perm (List.range g.vertexCount)) :
    g.EndsOrStrays (forwardSweep g .iterative order) :=
  Graph.sweep_endsOrStrays Array.size_replicate fun _ hv => List.mem_range.1 (horder.mem_iff.1 hv)

theorem exists_forward_iterative {g : Graph} {order : List Nat} (hg : g.WellFormed)
    (horder : order.Perm (List.range g.vertexCount)) :
    ∃ times, forward g .iterative order = .ok times := by
  obtain ⟨final, hsweep, -⟩ := (forwardSweep_endsOrStrays horder).exists_ok hg
  exact ⟨final.record.times, by simp only [forward, hsweep]⟩

theorem exists_backward_iterative {r : Graph} {order : List Nat} (hr : r.WellFormed)
    (hbound : ∀ v ∈ order, v < r.vertexCount) :
    ∃ leader, backward r .iterative order = .ok leader := by
  have hends : r.EndsOrStrays (backwardSweep r .iterative order) :=
    Graph.sweep_endsOrStrays Array.size_replicate hbound
  obtain ⟨final, hsweep, -⟩ := hends.exists_ok hr
  exact ⟨final.record, by simp only [backward, hsweep]⟩

/-- On a well-formed graph the worklist passes over all vertices succeed. -/
theorem exists_runInPlace_iterative {g : Graph} {order : List Nat} (hg : g.WellFormed)
    (horder : order.Perm (List.range g.vertexCount)) :
    ∃ passes, runInPlace g .iterative order = .ok passes := by
  obtain ⟨times, hforward⟩ := exists_forward_iterative hg horder
  obtain ⟨first, -, -, hvertices, -, hsize, hfinished⟩ := exists_forest_of_forward horder hforward
  have hpost := first.postorder_perm.trans hvertices
  obtain ⟨backwardOrder, hplaced, hplacedEq⟩ := hfinished.byDecreasingFinish_eq hpost hsize
  obtain ⟨r, hreversed, hcount, -⟩ := Graph.exists_reversed hg
  have hback : ∀ v ∈ backwardOrder.toList, v < r.vertexCount := by
    intro v hv
    rw [hplacedEq, List.mem_reverse] at hv
    rw [hcount]
    exact List.mem_range.1 (hpost.mem_iff.1 hv)
  obtain ⟨leader, hbackward⟩ :=
    exists_backward_iterative (Graph.wellFormed_of_reversed hg hreversed) hback
  exact ⟨⟨times, backwardOrder, leader⟩,
    runInPlace_eq_ok_iff.2 ⟨hforward, hplaced, r, hreversed, hbackward⟩⟩

/-- On a graph that is not well-formed the forward worklist pass over all vertices
stops at a stray neighbour. -/
theorem exists_stray_of_not_wellFormed {g : Graph} {order : List Nat} (hg : ¬ g.WellFormed)
    (horder : order.Perm (List.range g.vertexCount)) :
    ∃ interrupted, g.Stray interrupted ∧ forwardSweep g .iterative order = .error interrupted := by
  have hends := forwardSweep_endsOrStrays horder
  cases hsweep : forwardSweep g .iterative order with
  | error interrupted =>
      rw [hsweep] at hends
      exact ⟨interrupted, hends, rfl⟩
  | ok final =>
      -- A pass that ends has looked up every neighbour of every vertex.
      have hforward : forward g .iterative order = .ok final.record.times := by
        simp only [forward, hsweep]
      obtain ⟨-, -, -, -, hwell, -⟩ := exists_forest_of_forward horder hforward
      exact absurd hwell hg

theorem runInPlace_of_run {g : Graph} {supply : Stack.Supply} {strategy : Strategy}
    {order : List Nat} {passes : Passes} (h : run g supply strategy order = .ok passes) :
    runInPlace g strategy order = .ok passes := by
  rw [run] at h
  obtain ⟨-, -, h⟩ := bind_eq_ok_iff.1 h
  exact h

end Passes

/-- Passes in an order succeed only if it holds all vertices. -/
theorem Graph.runInPlace_of_passesInOrder {g : Graph} {supply : Stack.Supply} {strategy : Strategy}
    {order : List Nat} {passes : Passes} (h : g.passesInOrder supply strategy order = .ok passes) :
    order.Perm (List.range g.vertexCount) ∧ Passes.runInPlace g strategy order = .ok passes := by
  rw [Graph.passesInOrder] at h
  obtain ⟨⟨⟩, hcheck, hrun⟩ := bind_eq_ok_iff.1 h
  exact ⟨checkOrder_eq_ok_iff.1 hcheck, Passes.runInPlace_of_run hrun⟩

/-- On a list of all vertices, and where the stack can be reserved, the passes are run at once. -/
theorem Graph.passesInOrder_of_reserve {g : Graph} {supply : Stack.Supply} {strategy : Strategy}
    {order : List Nat} (horder : order.Perm (List.range g.vertexCount))
    (hreserve : strategy.reserve supply = .ok ()) :
    g.passesInOrder supply strategy order = Passes.runInPlace g strategy order := by
  rw [Graph.passesInOrder, checkOrder_eq_ok_iff.2 horder]
  show Passes.run g supply strategy order = _
  rw [Passes.run, hreserve]
  rfl

theorem Graph.passesInOrder_eq_runInPlace {g : Graph} {supply : Stack.Supply} {order : List Nat}
    (horder : order.Perm (List.range g.vertexCount)) :
    g.passesInOrder supply .iterative order = Passes.runInPlace g .iterative order :=
  passesInOrder_of_reserve horder rfl

/-- For every graph and every order of its vertices, the worklist passes succeed iff the graph is
well-formed.

If it is, the finish times are `1, …, n` in some order, the backward order holds every vertex
once, the vertex finished at time `t` stands at position `n - t` and the one at position `i` was
finished at time `n - i`, and every leader is a vertex. If it is not, the forward pass stops with
a failed look-up in its list of `n` flags, at a number that some explored vertex has as a
neighbour and that names no vertex. -/
theorem Graph.passesInOrder_iterative_outcome (g : Graph) (supply : Stack.Supply) (order : List Nat)
    (horder : order.Perm (List.range g.vertexCount)) :
    (g.WellFormed → ∃ passes, g.passesInOrder supply .iterative order = .ok passes ∧
      passes.finishTime.toList.Perm (List.range' 1 g.vertexCount) ∧
      passes.backwardOrder.toList.Perm (List.range g.vertexCount) ∧
      (∀ v < g.vertexCount, ∃ t, passes.finishTime[v]? = some t ∧ 1 ≤ t ∧ t ≤ g.vertexCount ∧
        passes.backwardOrder[g.vertexCount - t]? = some v) ∧
      (∀ i v, passes.backwardOrder[i]? = some v →
        passes.finishTime[v]? = some (g.vertexCount - i)) ∧
      passes.leader.size = g.vertexCount ∧ ∀ l ∈ passes.leader, l < g.vertexCount) ∧
    (¬ g.WellFormed → ∃ search u v,
      Passes.forwardSweep g .iterative order = .error ⟨.indexOutOfBounds g.vertexCount v, search⟩ ∧
      search.explored.size = g.vertexCount ∧ search.explored[u]? = some true ∧
      g.Edge u v ∧ g.vertexCount ≤ v ∧
      Passes.forward g .iterative order = .error (.indexOutOfBounds g.vertexCount v) ∧
      g.passesInOrder supply .iterative order = .error (.indexOutOfBounds g.vertexCount v)) := by
  constructor
  · intro hg
    obtain ⟨passes, hrun⟩ := Passes.exists_runInPlace_iterative hg horder
    obtain ⟨r, first, second, hgrown⟩ := Passes.exists_grown horder hrun
    refine ⟨passes, (passesInOrder_eq_runInPlace horder).trans hrun,
      hgrown.finished.times_perm hgrown.postorder_perm hgrown.times_size, ?_,
      fun v hv => hgrown.exists_time hv, fun i v hv => hgrown.time_of_backwardOrder hv,
      hgrown.leader_size, hgrown.leader_lt⟩
    rw [hgrown.backwardOrder_eq]
    exact (List.reverse_perm _).trans hgrown.postorder_perm
  · intro hg
    obtain ⟨⟨cause, search⟩, ⟨hsize, u, v, hu, hedge, hv, rfl⟩, hsweep⟩ :=
      Passes.exists_stray_of_not_wellFormed hg horder
    have hforward : Passes.forward g .iterative order =
        .error (.indexOutOfBounds g.vertexCount v) := by
      simp only [Passes.forward, hsweep]
    refine ⟨search, u, v, hsweep, hsize, hu, hedge, hv, hforward, ?_⟩
    rw [passesInOrder_eq_runInPlace horder, Passes.runInPlace, hforward]
    rfl

/-- Both cases occur: a cycle of two vertices, and the same with an edge to a third that does not
exist. -/
theorem Graph.passesInOrder_iterative_outcome_pair :
    [1, 0].Perm (List.range 2) ∧
      (∃ passes, (⟨#[#[1], #[0]]⟩ : Graph).passesInOrder Stack.ofAddressSpace .iterative [1, 0] =
        .ok passes) ∧
      ∃ v, (⟨#[#[1], #[0, 2]]⟩ : Graph).passesInOrder Stack.ofAddressSpace .iterative [1, 0] =
        .error (.indexOutOfBounds 2 v) := by
  have horder : [1, 0].Perm (List.range 2) := by decide
  obtain ⟨passes, hpasses, -⟩ :=
    (passesInOrder_iterative_outcome ⟨#[#[1], #[0]]⟩ Stack.ofAddressSpace [1, 0] horder).1
      (by decide)
  obtain ⟨-, -, v, -, -, -, -, -, -, hfailed⟩ :=
    (passesInOrder_iterative_outcome ⟨#[#[1], #[0, 2]]⟩ Stack.ofAddressSpace [1, 0] horder).2
      (by decide)
  exact ⟨horder, ⟨passes, hpasses⟩, v, hfailed⟩

end StrongComponents
