import StrongComponents.Proofs.Components.Passes
import StrongComponents.Proofs.Traversal.Height
import Mathlib.Data.List.Permutation

/-!
# The depth at which the passes succeed

On a well-formed graph the worklist passes grow two forests, one over the graph and one over the
graph turned round (`Graph.Grows`). The passes by nested calls find the same as the worklist passes
if their depth limit is at least the height of both forests, and are refused a vertex if it is not
(`Passes.runInPlace_withinRoom`). No limit makes them succeed with another result, and a limit as
large as the number of vertices is always enough.
-/

set_option autoImplicit false

namespace StrongComponents

namespace Graph

/-- Swept by worklist from the roots, with nothing explored before, the graph grows
the forest and reports it. -/
def Grows (g : Graph) (roots : List Nat) (forest : Forest) : Prop :=
  ∃ flags, g.Explores (Array.replicate g.vertexCount false) roots forest flags ∧
    g.sweep .iterative (fun _ => Visitor.log) roots (Search.fresh g.vertexCount #[]) =
      .ok ⟨flags, forest.visits.toArray⟩

variable {g : Graph} {roots : List Nat} {forest : Forest} {after : Array Bool}

/-- On a well-formed graph a forest is reported as it grows. -/
theorem Explores.grows (hg : g.WellFormed) (hroots : ∀ root ∈ roots, root < g.vertexCount)
    (h : g.Explores (Array.replicate g.vertexCount false) roots forest after) :
    g.Grows roots forest := by
  have hends : g.EndsOrStrays
      (g.sweep .iterative (fun _ => Visitor.log) roots (Search.fresh g.vertexCount #[])) :=
    sweep_endsOrStrays Array.size_replicate hroots
  obtain ⟨final, hsweep, -⟩ := hends.exists_ok hg
  refine ⟨after, h, ?_⟩
  rw [hsweep, Explores.eq_of_sweep h hsweep, Forest.replayRooted_const, Visitor.replay_log]
  simp [Search.fresh]

/-- A forest that holds every vertex once is no higher than their number. -/
theorem Grows.height_le (h : g.Grows roots forest)
    (hroots : roots.Perm (List.range g.vertexCount)) :
    forest.height ≤ g.vertexCount := by
  obtain ⟨flags, hexplores, -⟩ := h
  calc forest.height
      ≤ forest.vertices.length := forest.height_le_length
    _ = (List.range g.vertexCount).length := (hexplores.vertices_perm hroots).length_eq
    _ = g.vertexCount := List.length_range

/-- What is read off a sweep by nested calls is what is read off the sweep by worklist, if they may
go as deep as the forest is high, and otherwise a vertex is refused. -/
theorem Grows.read_withinRoom {σ β : Type} {visitor : Nat → Visitor σ} {record : σ}
    {read : Search σ → β} {value : β} (h : g.Grows roots forest)
    (hvalue : ((g.sweep .iterative visitor roots (Search.fresh g.vertexCount record)).mapError
      (·.cause)).map read = .ok value) (limit : Nat) :
    WithinRoom (DepthRefusal limit g.vertexCount) forest.height limit value
      (((g.sweep (.recursive limit) visitor roots (Search.fresh g.vertexCount record)).mapError
        (·.cause)).map read) := by
  obtain ⟨flags, hexplores, -⟩ := h
  cases hsweep : g.sweep .iterative visitor roots (Search.fresh g.vertexCount record) with
  | error interrupted =>
      rw [hsweep] at hvalue
      cases hvalue
  | ok final =>
      rw [hsweep] at hvalue
      cases hvalue
      have hwithin := hexplores.sweep_withinRoom visitor limit record
      rw [Array.size_replicate] at hwithin
      rw [Explores.eq_of_sweep hexplores hsweep]
      apply WithinRoom.map
      apply WithinRoom.mapError _ hwithin
      exact fun _ hrefusal => hrefusal

end Graph

namespace Passes

variable {g r : Graph} {order : List Nat} {forest : Forest} {times leader : Array Nat}

theorem forward_eq_map (g : Graph) (strategy : Strategy) (order : List Nat) :
    forward g strategy order =
      ((forwardSweep g strategy order).mapError (·.cause)).map (·.record.times) := by
  rw [forward]
  cases forwardSweep g strategy order <;> rfl

theorem backward_eq_map (r : Graph) (strategy : Strategy) (order : List Nat) :
    backward r strategy order =
      ((backwardSweep r strategy order).mapError (·.cause)).map (·.record) := by
  rw [backward]
  cases backwardSweep r strategy order <;> rfl

/-- The forward pass by nested calls needs as many levels as its forest is high. -/
theorem forward_withinRoom (h : g.Grows order forest)
    (hforward : forward g .iterative order = .ok times) (limit : Nat) :
    WithinRoom (DepthRefusal limit g.vertexCount) forest.height limit times
      (forward g (.recursive limit) order) := by
  rw [forward_eq_map] at hforward ⊢
  exact h.read_withinRoom hforward limit

/-- The backward pass by nested calls needs as many levels as its forest is high. -/
theorem backward_withinRoom (h : r.Grows order forest)
    (hbackward : backward r .iterative order = .ok leader) (limit : Nat) :
    WithinRoom (DepthRefusal limit r.vertexCount) forest.height limit leader
      (backward r (.recursive limit) order) := by
  rw [backward_eq_map] at hbackward ⊢
  exact h.read_withinRoom hbackward limit

/-- The worklist passes over a well-formed graph grow a forest each, and passes by nested calls need
as many levels as the higher of the two has. -/
theorem runInPlace_withinRoom {passes : Passes} (horder : order.Perm (List.range g.vertexCount))
    (hrun : runInPlace g .iterative order = .ok passes) :
    ∃ r forward backward, g.reversed = .ok r ∧ g.Grows order forward ∧
      r.Grows passes.backwardOrder.toList backward ∧
      max forward.height backward.height ≤ g.vertexCount ∧
      ∀ limit, WithinRoom (DepthRefusal limit g.vertexCount) (max forward.height backward.height)
        limit passes (runInPlace g (.recursive limit) order) := by
  obtain ⟨r, first, second, hgrown⟩ := exists_grown horder hrun
  obtain ⟨after, hfirst⟩ := hgrown.explores
  obtain ⟨after', hsecond⟩ := hgrown.explores_back
  obtain ⟨r', hr', hcount, -⟩ := Graph.exists_reversed hgrown.wellFormed
  rw [hgrown.reversed] at hr'
  cases hr'
  have hback : passes.backwardOrder.toList.Perm (List.range r.vertexCount) := by
    rw [hgrown.backwardOrder_eq, hcount]
    exact (List.reverse_perm _).trans hgrown.postorder_perm
  rw [← hcount, ← hgrown.backwardOrder_eq] at hsecond
  have hgrows : g.Grows order first :=
    hfirst.grows hgrown.wellFormed fun _ hv => List.mem_range.1 (horder.mem_iff.1 hv)
  have hgrows' : r.Grows passes.backwardOrder.toList second :=
    hsecond.grows (Graph.wellFormed_of_reversed hgrown.wellFormed hgrown.reversed)
      fun _ hv => List.mem_range.1 (hback.mem_iff.1 hv)
  refine ⟨r, first, second, hgrown.reversed, hgrows, hgrows', ?_, ?_⟩
  · have hheight := hgrows.height_le horder
    have hheight' := hgrows'.height_le hback
    omega
  · intro limit
    obtain ⟨hforward, hplaced, r', hr', hbackward⟩ := runInPlace_eq_ok_iff.1 hrun
    rw [hgrown.reversed] at hr'
    cases hr'
    have hwithin := (backward_withinRoom hgrows' hbackward limit).map
      fun leader => { passes with leader }
    rw [hcount] at hwithin
    -- Between the passes nothing is refused: the order and the reversal do not depend on the
    -- strategy.
    apply (forward_withinRoom hgrows hforward limit).bind
    simp only [hplaced, hgrown.reversed]
    exact hwithin

end Passes

/-- For every well-formed graph and every order of its vertices there is a depth, at most the
number of vertices, from which on the passes by nested calls succeed: the larger of the heights
of the two forests that the worklist passes grow. Below it they are refused a vertex, and from
it on they find what the worklist passes find. In particular a limit as large as the number of
vertices is enough, and what succeeds with a limit succeeds with every larger one, as long as
the stack can be reserved. -/
theorem Graph.passesInOrder_recursive_threshold (g : Graph) (supply : Stack.Supply)
    (hg : g.WellFormed) (order : List Nat) (horder : order.Perm (List.range g.vertexCount)) :
    ∃ passes r forward backward, g.passesInOrder supply .iterative order = .ok passes ∧
      g.reversed = .ok r ∧
      g.Grows order forward ∧ r.Grows passes.backwardOrder.toList backward ∧
      max forward.height backward.height ≤ g.vertexCount ∧
      (∀ limit, (Strategy.recursive limit).reserve supply = .ok () →
        (max forward.height backward.height ≤ limit →
          g.passesInOrder supply (.recursive limit) order = .ok passes) ∧
        (limit < max forward.height backward.height → ∃ v < g.vertexCount,
          g.passesInOrder supply (.recursive limit) order = .error (.depthExceeded limit v))) ∧
      (∀ limit, (Strategy.recursive limit).reserve supply = .ok () → g.vertexCount ≤ limit →
        g.passesInOrder supply (.recursive limit) order = .ok passes) ∧
      ∀ limit larger, limit ≤ larger → (Strategy.recursive larger).reserve supply = .ok () →
        ∀ found, g.passesInOrder supply (.recursive limit) order = .ok found →
          g.passesInOrder supply (.recursive larger) order = .ok found := by
  obtain ⟨passes, hrun⟩ := Passes.exists_runInPlace_iterative hg horder
  obtain ⟨r, forward, backward, hreversed, hgrows, hgrows', hbound, hwithin⟩ :=
    Passes.runInPlace_withinRoom horder hrun
  have hok : ∀ limit, (Strategy.recursive limit).reserve supply = .ok () →
      max forward.height backward.height ≤ limit →
      g.passesInOrder supply (.recursive limit) order = .ok passes := by
    intro limit hreserve hle
    rw [passesInOrder_of_reserve horder hreserve]
    exact (hwithin limit).ok hle
  refine ⟨passes, r, forward, backward, (passesInOrder_eq_runInPlace horder).trans hrun, hreversed,
    hgrows, hgrows', hbound, ?_, ?_, ?_⟩
  · intro limit hreserve
    refine ⟨hok limit hreserve, ?_⟩
    intro hlt
    obtain ⟨cause, ⟨v, hv, rfl⟩, hrefused⟩ := (hwithin limit).refused hlt
    rw [passesInOrder_of_reserve horder hreserve]
    exact ⟨v, hv, hrefused⟩
  · intro limit hreserve hle
    exact hok limit hreserve (Nat.le_trans hbound hle)
  · intro limit larger hle hreserve found hfound
    obtain ⟨-, hfound⟩ := runInPlace_of_passesInOrder hfound
    -- A limit with which the passes succeed is not below the threshold.
    rcases Nat.lt_or_ge limit (max forward.height backward.height) with hlt | hge
    · obtain ⟨cause, -, hrefused⟩ := (hwithin limit).refused hlt
      rw [hfound] at hrefused
      cases hrefused
    · rw [(hwithin limit).ok hge] at hfound
      cases hfound
      exact hok larger hreserve (Nat.le_trans hge hle)

/-- A graph whose forward forest has height two and whose backward forest has height three: with a
limit of two the forward pass ends, and the backward pass is refused a vertex. -/
theorem Graph.passesInOrder_recursive_threshold_triangle :
    (⟨#[#[1, 2], #[0], #[1]]⟩ : Graph).WellFormed ∧ [0, 1, 2].Perm (List.range 3) ∧
      Passes.forward ⟨#[#[1, 2], #[0], #[1]]⟩ (.recursive 2) [0, 1, 2] = .ok #[3, 1, 2] ∧
      (Strategy.recursive 2).reserve Stack.ofAddressSpace = .ok () ∧
      ∀ limit, (Strategy.recursive limit).reserve Stack.ofAddressSpace = .ok () →
        (3 ≤ limit →
          (⟨#[#[1, 2], #[0], #[1]]⟩ : Graph).passesInOrder Stack.ofAddressSpace (.recursive limit)
              [0, 1, 2] =
            (⟨#[#[1, 2], #[0], #[1]]⟩ : Graph).passesInOrder Stack.ofAddressSpace .iterative
              [0, 1, 2]) ∧
        (limit < 3 → ∃ v < 3,
          (⟨#[#[1, 2], #[0], #[1]]⟩ : Graph).passesInOrder Stack.ofAddressSpace (.recursive limit)
              [0, 1, 2] = .error (.depthExceeded limit v)) := by
  have hfails : (⟨#[#[1, 2], #[0], #[1]]⟩ : Graph).passesInOrder Stack.ofAddressSpace
    (.recursive 2) [0, 1, 2] = .error (.depthExceeded 2 2) := by cbv
  have hreserve : (Strategy.recursive 2).reserve Stack.ofAddressSpace = .ok () := by decide
  obtain ⟨passes, r, forward, backward, hpasses, -, -, -, hbound, hthreshold, -⟩ :=
    passesInOrder_recursive_threshold ⟨#[#[1, 2], #[0], #[1]]⟩ Stack.ofAddressSpace (by decide) [0,
      1, 2] (by decide)
  have hheight : max forward.height backward.height = 3 := by
    apply Nat.le_antisymm hbound
    rcases Nat.lt_or_ge 2 (max forward.height backward.height) with hlt | hge
    · exact hlt
    · rw [(hthreshold 2 hreserve).1 hge] at hfails
      cases hfails
  rw [hheight] at hthreshold
  rw [hpasses]
  exact ⟨by decide, by decide, by cbv, hreserve, hthreshold⟩

end StrongComponents
