import StrongComponents.Proofs.Components.Order
import StrongComponents.Proofs.Traversal.Outcome

/-!
# Finish times and the order of the second pass

The clock of the forward pass gives the vertices of the grown forest the times `1, 2, …` in
postorder (`FinishClock.replay_visits`, `FinishClock.finished_replay`). If the postorder enumerates
all vertices, the finish times are a permutation of `1, …, n` (`Finished.times_perm`), and the
vertices by decreasing finish time are the postorder backwards (`Finished.byDecreasingFinish_eq`):
no vertex is placed out of bounds and no place stays empty.
-/

set_option autoImplicit false

namespace StrongComponents

/-- The times say of each listed vertex when it was finished: the first at time `1`,
the next at `2`, and so on. -/
def Finished (times : Array Nat) (vertices : List Nat) : Prop :=
  ∀ i v, vertices[i]? = some v → times[v]? = some (i + 1)

namespace FinishClock

/-- Only the finishes of the reports matter to the clock, and these come in postorder. -/
theorem replay_visits (f : Forest) :
    ∀ clock, visitor.replay f.visits clock = visitor.replay (f.postorder.map .finish) clock := by
  induction f with
  | empty => intro clock; rfl
  | tree root children siblings ihc ihs =>
      intro clock
      simp only [Forest.visits, Forest.postorder, List.map_append, List.map_cons,
        Visitor.replay_cons, Visitor.replay_append, ihc, ihs]
      rfl

theorem size_replay_finish (vertices : List Nat) :
    ∀ clock, (visitor.replay (vertices.map .finish) clock).times.size = clock.times.size := by
  induction vertices with
  | nil => intro clock; rfl
  | cons v vertices ih =>
      intro clock
      rw [List.map_cons, Visitor.replay_cons, ih]
      exact Array.size_setIfInBounds

/-- A vertex that is not finished keeps its time. -/
theorem replay_finish_of_notMem {v : Nat} (vertices : List Nat) (hv : v ∉ vertices) :
    ∀ clock, (visitor.replay (vertices.map .finish) clock).times[v]? = clock.times[v]? := by
  induction vertices with
  | nil => intro clock; rfl
  | cons w vertices ih =>
      intro clock
      rw [List.mem_cons, not_or] at hv
      rw [List.map_cons, Visitor.replay_cons, ih hv.2]
      exact Array.getElem?_setIfInBounds_ne (Ne.symm hv.1)

/-- Vertices finished one after the other get consecutive times. -/
theorem replay_finish_getElem? (vertices : List Nat) (hnodup : vertices.Nodup) :
    ∀ clock, (∀ v ∈ vertices, v < clock.times.size) → ∀ i v, vertices[i]? = some v →
      (visitor.replay (vertices.map .finish) clock).times[v]? = some (clock.now + i + 1) := by
  induction vertices with
  | nil => intro clock _ i v hv; simp at hv
  | cons w vertices ih =>
      intro clock hbound i v hv
      obtain ⟨hw, hrest⟩ := List.nodup_cons.1 hnodup
      rw [List.map_cons, Visitor.replay_cons]
      cases i with
      | zero =>
          simp only [List.getElem?_cons_zero, Option.some.injEq] at hv
          subst hv
          rw [replay_finish_of_notMem vertices hw]
          exact Array.getElem?_setIfInBounds_self_of_lt (hbound w List.mem_cons_self)
      | succ i =>
          rw [List.getElem?_cons_succ] at hv
          have hbound' : ∀ x ∈ vertices, x < (visitor.report clock (.finish w)).times.size := by
            intro x hx
            show x < (clock.times.setIfInBounds w (clock.now + 1)).size
            rw [Array.size_setIfInBounds]
            exact hbound x (List.mem_cons_of_mem _ hx)
          rw [ih hrest _ hbound' i v hv]
          show some (clock.now + 1 + i + 1) = _
          rw [show clock.now + 1 + i = clock.now + (i + 1) by omega]

/-- The clock that starts at zero finishes the vertices of a forest in postorder. -/
theorem finished_replay {f : Forest} (hnodup : f.postorder.Nodup) {times : Array Nat}
    (hbound : ∀ v ∈ f.postorder, v < times.size) :
    Finished (visitor.replay f.visits ⟨0, times⟩).times f.postorder := by
  intro i v hv
  rw [replay_visits, replay_finish_getElem? f.postorder hnodup _ hbound i v hv, Nat.zero_add]

end FinishClock

/-! ## Placing the vertices -/

namespace Passes

/-- Placing vertices with distinct times among `1, …, n` succeeds. Each vertex stands where its time
says, and the other places are unchanged. -/
theorem foldlM_place (stamps : List (Nat × Nat)) :
    ∀ order : Array Nat, (∀ s ∈ stamps, 0 < s.1 ∧ s.1 ≤ order.size) →
      (stamps.map (·.1)).Nodup →
      ∃ placed, stamps.foldlM (fun order (t, v) => place order v t) order = .ok placed ∧
        placed.size = order.size ∧
        (∀ s ∈ stamps, placed[order.size - s.1]? = some s.2) ∧
        ∀ j, (∀ s ∈ stamps, order.size - s.1 ≠ j) → placed[j]? = order[j]? := by
  induction stamps with
  | nil =>
      intro order _ _
      exact ⟨order, rfl, rfl, by simp, fun _ _ => rfl⟩
  | cons stamp stamps ih =>
      obtain ⟨t, v⟩ := stamp
      intro order hbound hnodup
      obtain ⟨ht, hle⟩ := hbound (t, v) List.mem_cons_self
      rw [List.map_cons, List.nodup_cons] at hnodup
      have hplace : place order v t = .ok (order.setIfInBounds (order.size - t) v) := by
        simp only [place]
        rw [if_pos ⟨ht, hle⟩]
      have hbound' : ∀ s ∈ stamps, 0 < s.1 ∧
          s.1 ≤ (order.setIfInBounds (order.size - t) v).size := by
        intro s hs
        rw [Array.size_setIfInBounds]
        exact hbound s (List.mem_cons_of_mem _ hs)
      obtain ⟨placed, hfold, hsize, hplaced, hother⟩ := ih _ hbound' hnodup.2
      rw [Array.size_setIfInBounds] at hsize hplaced hother
      -- No later vertex has the place of this one, as its time is a different one.
      have hapart : ∀ s ∈ stamps, order.size - s.1 ≠ order.size - t := by
        intro s hs heq
        have hs1 := hbound s (List.mem_cons_of_mem _ hs)
        have hst : s.1 = t := by omega
        exact hnodup.1 (List.mem_map.2 ⟨s, hs, hst⟩)
      refine ⟨placed, ?_, hsize, ?_, ?_⟩
      · rw [List.foldlM_cons]
        show (place order v t >>= fun order => stamps.foldlM _ order) = _
        rw [hplace]
        exact hfold
      · intro s hs
        rcases List.mem_cons.1 hs with rfl | hs
        · rw [hother _ hapart]
          exact Array.getElem?_setIfInBounds_self_of_lt (by omega)
        · exact hplaced s hs
      · intro j hj
        rw [hother j fun s hs => hj s (List.mem_cons_of_mem _ hs)]
        exact Array.getElem?_setIfInBounds_ne (hj (t, v) List.mem_cons_self)

end Passes

namespace Finished

variable {times : Array Nat} {vertices : List Nat} {n : Nat}

/-- Every vertex has a time, one more than its position. -/
theorem exists_time (h : Finished times vertices) (hperm : vertices.Perm (List.range n)) {v : Nat}
    (hv : v < n) : ∃ i < n, vertices[i]? = some v ∧ times[v]? = some (i + 1) := by
  obtain ⟨i, hi⟩ := List.mem_iff_getElem?.1 (hperm.mem_iff.2 (List.mem_range.2 hv))
  obtain ⟨hlt, -⟩ := List.getElem?_eq_some_iff.1 hi
  have hlength : vertices.length = n := by simpa using hperm.length_eq
  exact ⟨i, by omega, hi, h i v hi⟩

/-- What was finished before a vertex has a smaller time, what was finished after it a larger
one. -/
theorem time_of_split {front back : List Nat} {v : Nat} (h : Finished times (front ++ v :: back)) :
    times[v]? = some (front.length + 1) ∧
      (∀ w ∈ front, ∃ s < front.length + 1, times[w]? = some s) ∧
      ∀ w ∈ back, ∃ s > front.length + 1, times[w]? = some s := by
  refine ⟨h front.length v (by simp), ?_, ?_⟩
  · intro w hw
    obtain ⟨i, hi⟩ := List.mem_iff_getElem?.1 hw
    obtain ⟨hlt, -⟩ := List.getElem?_eq_some_iff.1 hi
    refine ⟨i + 1, by omega, h i w ?_⟩
    rw [List.getElem?_append_left hlt, hi]
  · intro w hw
    obtain ⟨i, hi⟩ := List.mem_iff_getElem?.1 hw
    refine ⟨front.length + (i + 1) + 1, by omega, h (front.length + (i + 1)) w ?_⟩
    rw [List.getElem?_append_right (Nat.le_add_right _ _), Nat.add_sub_cancel_left,
      List.getElem?_cons_succ, hi]

/-- The finish times are the numbers `1, …, n` in some order. -/
theorem times_perm (h : Finished times vertices) (hperm : vertices.Perm (List.range n))
    (hsize : times.size = n) : times.toList.Perm (List.range' 1 n) := by
  have hlength : vertices.length = n := by simpa using hperm.length_eq
  -- Listed by vertex the times are `times`, listed in the order of finishing they are `1, …, n`.
  have hpost : vertices.map (times.getD · 0) = List.range' 1 n := by
    apply List.ext_getElem
    · simp [hlength]
    · intro i hi hi'
      rw [List.length_map] at hi
      have htime := h i vertices[i] (List.getElem?_eq_getElem hi)
      rw [List.getElem_map, List.getElem_range', Array.getD_eq_getD_getElem?, htime]
      simp only [Option.getD_some]
      omega
  have hindex : (List.range n).map (times.getD · 0) = times.toList := by
    apply List.ext_getElem
    · simp [hsize]
    · intro v hv hv'
      rw [List.getElem_map, List.getElem_range, Array.getD_eq_getD_getElem?]
      rw [Array.length_toList] at hv'
      simp [hv']
  rw [← hpost, ← hindex]
  exact (hperm.map _).symm

/-- By decreasing finish time, the vertices stand in the reverse of the order in which they are
finished. -/
theorem byDecreasingFinish_eq (h : Finished times vertices) (hperm : vertices.Perm (List.range n))
    (hsize : times.size = n) :
    ∃ order, Passes.byDecreasingFinish times = .ok order ∧ order.toList = vertices.reverse := by
  have hlength : vertices.length = n := by simpa using hperm.length_eq
  have hstamp : ∀ s ∈ times.toList.zipIdx, times[s.2]? = some s.1 := by
    rintro ⟨t, v⟩ hs
    simpa using List.mk_mem_zipIdx_iff_getElem?.1 hs
  have hbound : ∀ s ∈ times.toList.zipIdx, 0 < s.1 ∧ s.1 ≤ (Array.replicate times.size 0).size := by
    rintro ⟨t, v⟩ hs
    have ht := hstamp _ hs
    obtain ⟨hv, -⟩ := Array.getElem?_eq_some_iff.1 ht
    obtain ⟨i, hi, -, htime⟩ := h.exists_time hperm (hsize ▸ hv)
    rw [htime] at ht
    cases ht
    rw [Array.size_replicate, hsize]
    exact ⟨Nat.succ_pos i, hi⟩
  have hnodup : (times.toList.zipIdx.map (·.1)).Nodup := by
    rw [List.zipIdx_map_fst]
    exact (h.times_perm hperm hsize).nodup_iff.2 List.nodup_range'
  obtain ⟨placed, hfold, hplacedSize, hplaced, -⟩ := Passes.foldlM_place _ _ hbound hnodup
  rw [Array.size_replicate, hsize] at hplacedSize hplaced
  refine ⟨placed, hfold, ?_⟩
  apply List.ext_getElem?
  intro j
  rw [Array.getElem?_toList]
  rcases Nat.lt_or_ge j n with hj | hj
  · -- At position `j` stands the vertex that was finished with `j` others after it.
    have hi : n - 1 - j < vertices.length := by omega
    have htime := h (n - 1 - j) vertices[n - 1 - j] (List.getElem?_eq_getElem hi)
    have hs : (n - 1 - j + 1, vertices[n - 1 - j]) ∈ times.toList.zipIdx :=
      List.mk_mem_zipIdx_iff_getElem?.2 (by simpa using htime)
    have hplace := hplaced _ hs
    rw [show n - (n - 1 - j + 1) = j by omega] at hplace
    rw [hplace, List.getElem?_reverse (by omega), hlength, List.getElem?_eq_getElem hi]
  · rw [Array.getElem?_eq_none (by omega), List.getElem?_eq_none (by simp; omega)]

end Finished

end StrongComponents
