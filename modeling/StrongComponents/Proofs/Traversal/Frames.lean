import StrongComponents.Proofs.Graph.Reversal
import StrongComponents.Proofs.Traversal.DepthCut
import StrongComponents.Proofs.Traversal.Forest
import Mathlib.Data.List.Permutation

/-!
# The frames that a worklist takes

Each step of a worklist takes one frame. On every graph, well formed or not, from all
flags and every start, a run comes to a halt, after no more steps than there are edges and
flags (`exists_halted_within`).

`Worklist.Accounts` is the account of a run under way: the frames taken so far and those still ahead
of the entered vertices are together the frames of the discovered vertices, one for each of their
neighbours and one more. A step moves a frame from one side of the account to the other, or opens
the account of a new vertex (`accounts_step`). When a run ends nothing is ahead any more, so it has
taken every frame of every discovered vertex once and nothing else (`traverse_frames`).
-/

set_option autoImplicit false

namespace StrongComponents

variable {σ : Type}

/-- The vertex whose discovery is reported, if that is what is reported. -/
def Visit.discovered? : Visit → Option Nat
  | .discover v => some v
  | .finish _ => none

/-- The vertices whose discovery is reported, in order. -/
def discoveries (visits : Array Visit) : List Nat := visits.toList.filterMap Visit.discovered?

theorem mem_discoveries_iff {visits : Array Visit} {v : Nat} :
    v ∈ discoveries visits ↔ .discover v ∈ visits := by
  rw [discoveries, List.mem_filterMap, ← Array.mem_toList_iff]
  constructor
  · rintro ⟨visit, hmem, hvisit⟩
    cases visit with
    | discover u =>
        cases hvisit
        exact hmem
    | finish u => cases hvisit
  · exact fun hmem => ⟨.discover v, hmem, rfl⟩

theorem discoveries_push_discover (visits : Array Visit) (v : Nat) :
    discoveries (visits.push (.discover v)) = discoveries visits ++ [v] := by
  simp [discoveries, Visit.discovered?]

theorem discoveries_push_finish (visits : Array Visit) (v : Nat) :
    discoveries (visits.push (.finish v)) = discoveries visits := by
  simp [discoveries, Visit.discovered?]

/-- The frames that are taken for an entered vertex from this one on: one for each neighbour that is
left, and the last one, with which the vertex is finished. -/
def Frame.ahead (g : Graph) (frame : Frame) : List Frame :=
  (List.range' frame.next (g.outdegree frame.vertex + 1 - frame.next)).map fun i =>
    ⟨frame.vertex, i⟩

namespace Frame

variable {g : Graph} {v i : Nat}

theorem mem_ahead_iff {frame later : Frame} :
    later ∈ frame.ahead g ↔
      later.vertex = frame.vertex ∧ frame.next ≤ later.next ∧
        later.next ≤ g.outdegree frame.vertex := by
  obtain ⟨v, i⟩ := frame
  obtain ⟨w, j⟩ := later
  simp only [ahead, List.mem_map, List.mem_range'_1, mk.injEq]
  constructor
  · rintro ⟨k, hk, rfl, rfl⟩
    exact ⟨rfl, by omega⟩
  · rintro ⟨rfl, hij, hj⟩
    exact ⟨j, by omega, rfl, rfl⟩

theorem ahead_eq_cons (h : i ≤ g.outdegree v) : ahead g ⟨v, i⟩ = ⟨v, i⟩ :: ahead g ⟨v, i + 1⟩ := by
  have hcount : g.outdegree v + 1 - i = g.outdegree v + 1 - (i + 1) + 1 := by omega
  simp only [ahead, hcount, List.range'_succ, List.map_cons]

/-- Nothing is ahead of a vertex that is finished. -/
theorem ahead_eq_nil (h : g.outdegree v < i) : ahead g ⟨v, i⟩ = [] := by
  have hcount : g.outdegree v + 1 - i = 0 := by omega
  simp only [ahead, hcount, List.range'_zero, List.map_nil]

theorem nodup_ahead (frame : Frame) : (frame.ahead g).Nodup := by
  apply List.Nodup.map _ List.nodup_range'
  intro i j heq
  exact (Frame.mk.inj heq).2

end Frame

namespace Worklist

variable {g : Graph} {visitor : Visitor σ} {start : Nat} {search : Search σ}

/-! ## Runs come to a halt -/

/-- Steps use up the work one by one. -/
theorem work_after_add {n : Nat} :
    ∀ {w later : Worklist σ}, after g visitor n w = some later → work g later + n = work g w := by
  induction n with
  | zero =>
      intro w later h
      cases h
      rfl
  | succ n ih =>
      intro w later h
      cases hstep : step g visitor w with
      | halted outcome => simp [after_succ_of_halted hstep] at h
      | running next =>
          rw [after_succ_of_step hstep] at h
          have hrest := ih h
          have hfirst := work_step hstep
          omega

theorem exists_halted (g : Graph) (visitor : Visitor σ) (w : Worklist σ) :
    ∃ n last, after g visitor n w = some last ∧
      step g visitor last = .halted (run g visitor w) := by
  induction w using run_induction g visitor with
  | halted w outcome h =>
      refine ⟨0, w, rfl, ?_⟩
      rw [h, run_of_halted h]
  | running w next h ih =>
      obtain ⟨n, last, hlast, hhalted⟩ := ih
      refine ⟨n + 1, last, by rw [after_succ_of_step h, hlast], ?_⟩
      rw [hhalted, run_of_step h]

/-- The neighbours of a vertex come on top of those of all later vertices. -/
theorem outdegree_add_le (g : Graph) (v : Nat) :
    g.outdegree v + (g.adjacency.toList.drop (v + 1)).foldl
      (fun count targets => count + targets.size) 0 ≤
      (g.adjacency.toList.drop v).foldl (fun count targets => count + targets.size) 0 := by
  cases hv : g.adjacency[v]? with
  | none =>
      -- Past the last vertex there is nothing to count on either side.
      have hsize : g.adjacency.toList.length ≤ v := by simpa using hv
      rw [List.drop_eq_nil_of_le hsize, List.drop_eq_nil_of_le (by omega)]
      simp [Graph.outdegree, hv]
  | some targets =>
      obtain ⟨hlt, hget⟩ := Array.getElem?_eq_some_iff.1 hv
      have hlt' : v < g.adjacency.toList.length := hlt
      rw [List.drop_eq_getElem_cons hlt', List.foldl_cons, Graph.length_edgesFrom _ 0 0,
        Graph.length_edgesFrom _ 0 (0 + _), Graph.outdegree_eq hv, Array.getElem_toList, hget]
      omega

/-- The unexplored vertices have no more frames than there are flags and edges. -/
theorem unexploredWork_le (g : Graph) (flags : List Bool) : ∀ v,
    unexploredWork g flags v ≤ flags.length +
      (g.adjacency.toList.drop v).foldl (fun count targets => count + targets.size) 0 := by
  induction flags with
  | nil => intro v; exact Nat.zero_le _
  | cons flag flags ih =>
      intro v
      have hrest := ih (v + 1)
      have hfirst := outdegree_add_le g v
      simp only [unexploredWork, List.length_cons]
      split
      · omega
      · omega

/-- At its start a traversal has no more work ahead than there are edges and flags. -/
theorem work_enter_le (g : Graph) (visitor : Visitor σ) (hstart : start < search.explored.size) :
    work g ⟨[⟨start, 0⟩], search.discover visitor start⟩ ≤ g.edgeCount + search.explored.size := by
  -- The work is that of all unexplored vertices with `start` counted among them.
  have hentered := unexploredWork_set g (search.explored.toList.set start false) 0 start
    (by simp [hstart])
  have hbound := unexploredWork_le g (search.explored.toList.set start false) 0
  rw [List.set_set, Nat.zero_add] at hentered
  rw [List.length_set, List.drop_zero, Array.foldl_toList, ← Graph.edgeCount, Array.length_toList]
    at hbound
  simp only [work, framesWork, frameWork, Search.discover, Array.toList_setIfInBounds]
  omega

/-- A traversal whose start has a flag halts, after no more steps than there are edges and flags. -/
theorem exists_halted_within (g : Graph) (visitor : Visitor σ)
    (hstart : start < search.explored.size) :
    ∃ steps last, steps ≤ g.edgeCount + search.explored.size ∧
      stateAt g visitor start search steps = some last ∧
      step g visitor last = .halted (traverse g visitor start search) := by
  have hflag := Array.getElem?_eq_getElem hstart
  obtain ⟨steps, last, hlast, hhalted⟩ :=
    exists_halted g visitor ⟨[⟨start, 0⟩], search.discover visitor start⟩
  refine ⟨steps, last, ?_, ?_, ?_⟩
  · have hused := work_after_add hlast
    have hbound := work_enter_le g visitor hstart
    omega
  · rw [stateAt_eq_after hflag, hlast]
  · rw [traverse_eq_run hflag, hhalted]

/-! ## The log and other records -/

end Worklist

/-- The search with the record that the logged reports leave with a visitor. -/
def Search.replayed (visitor : Visitor σ) (record : σ) (search : Search (Array Visit)) : Search σ :=
  ⟨search.explored, visitor.replay search.record.toList record⟩

/-- The outcome with the record that the logged reports leave with a visitor. -/
def Outcome.replayed (visitor : Visitor σ) (record : σ) : Outcome (Array Visit) → Outcome σ
  | .ok search => .ok (search.replayed visitor record)
  | .error interrupted => .error ⟨interrupted.cause, interrupted.search.replayed visitor record⟩

namespace Search

variable (visitor : Visitor σ) (record : σ) (v : Nat) (search : Search (Array Visit))

theorem replayed_discover :
    (search.discover Visitor.log v).replayed visitor record =
      (search.replayed visitor record).discover visitor v := by
  simp [replayed, discover, Visitor.log, Visitor.report]

theorem replayed_finish :
    (search.finish Visitor.log v).replayed visitor record =
      (search.replayed visitor record).finish visitor v := by
  simp [replayed, finish, Visitor.log, Visitor.report]

end Search

namespace Worklist

variable {g : Graph} {visitor : Visitor σ} {record : σ} {start : Nat} {w : Worklist (Array Visit)}

/-- The worklist with the record that the logged reports leave with a visitor. -/
def replayed (visitor : Visitor σ) (record : σ) (w : Worklist (Array Visit)) : Worklist σ :=
  ⟨w.frames, w.search.replayed visitor record⟩

theorem step_replayed_of_running {next : Worklist (Array Visit)}
    (h : step g Visitor.log w = .running next) :
    step g visitor (w.replayed visitor record) = .running (next.replayed visitor record) := by
  -- A step looks at frames and flags only, and those are the same.
  cases move_of_step h with
  | @finish v i outer search neighbors hadj hend =>
      rw [replayed, replayed, Search.replayed_finish]
      exact (Move.finish hadj hend).step_eq
  | @skip v i target outer search neighbors hadj hget hflag =>
      have hflag' : (search.replayed visitor record).explored[target]? = some true := hflag
      exact (Move.skip hadj hget hflag').step_eq
  | @descend v i target outer search neighbors hadj hget hflag =>
      have hflag' : (search.replayed visitor record).explored[target]? = some false := hflag
      rw [replayed, replayed, Search.replayed_discover]
      exact (Move.descend hadj hget hflag').step_eq

theorem step_replayed_of_halted {outcome : Outcome (Array Visit)}
    (h : step g Visitor.log w = .halted outcome) :
    step g visitor (w.replayed visitor record) = .halted (outcome.replayed visitor record) := by
  cases move_of_step h with
  | done search => exact (Move.done (search.replayed visitor record)).step_eq
  | missing hadj => exact (Move.missing hadj).step_eq
  | @stray v i target outer search neighbors hadj hget hflag =>
      have hflag' : (search.replayed visitor record).explored[target]? = none := hflag
      exact (Move.stray hadj hget hflag').step_eq

theorem after_replayed (n : Nat) : ∀ w : Worklist (Array Visit),
    after g visitor n (w.replayed visitor record) =
      (after g Visitor.log n w).map (replayed visitor record) := by
  induction n with
  | zero => exact fun _ => rfl
  | succ n ih =>
      intro w
      cases hstep : step g Visitor.log w with
      | halted outcome =>
          rw [after_succ_of_halted hstep, after_succ_of_halted (step_replayed_of_halted hstep),
            Option.map_none]
      | running next =>
          rw [after_succ_of_step hstep, after_succ_of_step (step_replayed_of_running hstep), ih]

/-- Whatever its visitor records, a traversal goes through the states of the
traversal that logs its reports. -/
theorem stateAt_replayed (g : Graph) (visitor : Visitor σ) (start : Nat) (search : Search σ)
    (n : Nat) :
    stateAt g visitor start search n =
      (stateAt g Visitor.log start ⟨search.explored, #[]⟩ n).map
        (replayed visitor search.record) := by
  cases hstart : search.explored[start]? with
  | none => simp [stateAt, enter, hstart]
  | some flag =>
      have hlogged : (⟨search.explored, #[]⟩ : Search (Array Visit)).explored[start]? = some flag :=
        hstart
      rw [stateAt_eq_after hstart, stateAt_eq_after hlogged, ← after_replayed, replayed,
        Search.replayed_discover]
      rfl

/-! ## The account of a run -/

/-- The frame that a traversal takes at a step, counted from zero, if it gets that far. -/
def frameAt (g : Graph) (visitor : Visitor σ) (start : Nat) (search : Search σ) (n : Nat) :
    Option Frame :=
  (stateAt g visitor start search n).bind fun w => w.frames.head?

/-- The frames taken at the first `n` steps. -/
def framesBefore (g : Graph) (visitor : Visitor σ) (start : Nat) (search : Search σ) (n : Nat) :
    List Frame :=
  (List.range n).filterMap (frameAt g visitor start search)

theorem frameAt_log (g : Graph) (visitor : Visitor σ) (start : Nat) (search : Search σ) (n : Nat) :
    frameAt g visitor start search n = frameAt g Visitor.log start ⟨search.explored, #[]⟩ n := by
  rw [frameAt, frameAt, stateAt_replayed, Option.bind_map]
  rfl

theorem mem_framesBefore {search : Search σ} {n : Nat} {frame : Frame} :
    frame ∈ framesBefore g visitor start search n ↔
      ∃ k < n, frameAt g visitor start search k = some frame := by
  simp [framesBefore]

/-- The account of a traversal: frames of discovered vertices are either taken or ahead. -/
structure Accounts (g : Graph) (taken : List Frame) (w : Worklist (Array Visit)) : Prop where
  next_le : ∀ frame ∈ w.frames, frame.next ≤ g.outdegree frame.vertex
  marked : ∀ v ∈ discoveries w.search.record, w.search.explored[v]? = some true
  nodup : (discoveries w.search.record).Nodup
  balance : (taken ++ w.frames.flatMap (Frame.ahead g)).Perm
    ((discoveries w.search.record).flatMap fun v => Frame.ahead g ⟨v, 0⟩)

/-- Where a neighbour is looked at, the vertex has not had its last frame. -/
theorem lt_outdegree {v i target : Nat} {neighbors : Array Nat}
    (hadj : g.adjacency[v]? = some neighbors) (hget : neighbors[i]? = some target) :
    i < g.outdegree v := by
  rw [Graph.outdegree_eq hadj]
  exact (Array.getElem?_eq_some_iff.1 hget).1

/-- A step takes the innermost frame and leaves the account in balance. -/
theorem accounts_step {taken : List Frame} {next : Worklist (Array Visit)} (h : Accounts g taken w)
    (hstep : step g Visitor.log w = .running next) :
    Accounts g (taken ++ w.frames.head?.toList) next := by
  obtain ⟨hnext, hmarked, hnodup, hbalance⟩ := h
  cases move_of_step hstep with
  | @finish v i outer search neighbors hadj hend =>
      have hlast : g.outdegree v < i + 1 := by
        have hsize := Array.getElem?_eq_none_iff.1 hend
        rw [Graph.outdegree_eq hadj]
        omega
      have hsame : discoveries (search.finish Visitor.log v).record = discoveries search.record :=
        discoveries_push_finish search.record v
      rw [List.flatMap_cons, Frame.ahead_eq_cons (hnext ⟨v, i⟩ List.mem_cons_self),
        Frame.ahead_eq_nil hlast, List.singleton_append, List.append_cons] at hbalance
      refine ⟨?_, by rwa [hsame], by rwa [hsame], by rwa [hsame]⟩
      exact fun frame hframe => hnext frame (List.mem_cons_of_mem _ hframe)
  | @skip v i target outer search neighbors hadj hget hflag =>
      have hlt := lt_outdegree hadj hget
      rw [List.flatMap_cons, Frame.ahead_eq_cons (Nat.le_of_lt hlt), List.cons_append,
        List.append_cons] at hbalance
      refine ⟨?_, hmarked, hnodup, hbalance⟩
      intro frame hframe
      rcases List.mem_cons.1 hframe with rfl | hframe
      · exact hlt
      · exact hnext frame (List.mem_cons_of_mem _ hframe)
  | @descend v i target outer search neighbors hadj hget hflag =>
      have hlt := lt_outdegree hadj hget
      have hnew : target ∉ discoveries search.record :=
        fun hmem => not_explored_of_unexplored hflag (hmarked target hmem)
      have hmore : discoveries (search.discover Visitor.log target).record =
          discoveries search.record ++ [target] :=
        discoveries_push_discover search.record target
      rw [List.flatMap_cons, Frame.ahead_eq_cons (Nat.le_of_lt hlt), List.cons_append,
        List.append_cons] at hbalance
      refine ⟨?_, ?_, ?_, ?_⟩
      · intro frame hframe
        rcases List.mem_cons.1 hframe with rfl | hframe
        · exact Nat.zero_le _
        · rcases List.mem_cons.1 hframe with rfl | hframe
          · exact hlt
          · exact hnext frame (List.mem_cons_of_mem _ hframe)
      · intro u hu
        rw [hmore, List.mem_append, List.mem_singleton] at hu
        exact (getElem?_mark_eq_true hflag).2 (hu.symm.imp_right (hmarked u))
      · rw [hmore, List.nodup_append]
        refine ⟨hnodup, List.nodup_singleton target, ?_⟩
        rintro u hu t ht rfl
        exact hnew (List.mem_singleton.1 ht ▸ hu)
      · -- The new vertex opens its account on both sides.
        have hopened := hbalance.append_left (Frame.ahead g ⟨target, 0⟩)
        rw [hmore, List.flatMap_append, List.flatMap_singleton]
        exact (List.perm_append_comm_assoc _ _ _).trans (hopened.trans List.perm_append_comm)

/-- Only a traversal whose start has a flag gets anywhere. -/
theorem exists_flag_of_stateAt {search : Search σ} {n : Nat} {w : Worklist σ}
    (h : stateAt g visitor start search n = some w) :
    ∃ flag, search.explored[start]? = some flag := by
  cases hstart : search.explored[start]? with
  | none => simp [stateAt, enter, hstart] at h
  | some flag => exact ⟨flag, rfl⟩

theorem exists_step_of_stateAt_succ {search : Search σ} {n : Nat} {next : Worklist σ}
    (h : stateAt g visitor start search (n + 1) = some next) :
    ∃ w, stateAt g visitor start search n = some w ∧ step g visitor w = .running next := by
  obtain ⟨flag, hstart⟩ := exists_flag_of_stateAt h
  rw [stateAt_eq_after hstart, after_add n 1] at h
  obtain ⟨w, hw, hone⟩ := Option.bind_eq_some_iff.1 h
  refine ⟨w, by rw [stateAt_eq_after hstart, hw], ?_⟩
  cases hstep : step g visitor w with
  | halted outcome => simp [after_succ_of_halted hstep] at hone
  | running next' =>
      rw [after_succ_of_step hstep] at hone
      cases hone
      rfl

/-- The account is in balance at every state of a traversal. -/
theorem accounts_stateAt {explored : Array Bool} {n : Nat} : ∀ {w : Worklist (Array Visit)},
    stateAt g Visitor.log start ⟨explored, #[]⟩ n = some w →
      Accounts g (framesBefore g Visitor.log start ⟨explored, #[]⟩ n) w := by
  induction n with
  | zero =>
      intro w h
      obtain ⟨flag, hstart⟩ := exists_flag_of_stateAt h
      have hlt : start < explored.size := (Array.getElem?_eq_some_iff.1 hstart).1
      rw [stateAt_eq_after hstart] at h
      cases h
      have hfirst : discoveries (Search.discover Visitor.log start ⟨explored, #[]⟩).record =
          [start] :=
        discoveries_push_discover #[] start
      refine ⟨by simp, ?_, ?_, ?_⟩
      · rw [hfirst]
        simp [Search.discover, hlt]
      · rw [hfirst]
        exact List.nodup_singleton start
      · rw [hfirst]
        exact .refl _
  | succ n ih =>
      intro next h
      obtain ⟨w, hw, hstep⟩ := exists_step_of_stateAt_succ h
      have htaken : framesBefore g Visitor.log start ⟨explored, #[]⟩ (n + 1) =
          framesBefore g Visitor.log start ⟨explored, #[]⟩ n ++ w.frames.head?.toList := by
        rw [framesBefore, List.range_succ, List.filterMap_append, ← framesBefore]
        cases hhead : w.frames.head? <;> simp [frameAt, hw, hhead]
      rw [htaken]
      exact accounts_step (ih hw) hstep

/-- Where no frame is left, the taken frames are those of the discovered vertices, each of them
once. -/
theorem Accounts.settled {taken : List Frame} {final : Search (Array Visit)}
    (h : Accounts g taken ⟨[], final⟩) :
    taken.Nodup ∧ ∀ v i, ⟨v, i⟩ ∈ taken ↔ .discover v ∈ final.record ∧ i ≤ g.outdegree v := by
  have hbalance := h.balance
  rw [List.flatMap_nil, List.append_nil] at hbalance
  constructor
  · rw [hbalance.nodup_iff, List.nodup_flatMap]
    refine ⟨fun v _ => Frame.nodup_ahead _, ?_⟩
    apply h.nodup.imp
    -- Frames of different vertices are different.
    intro u v huv frame hu hv
    exact huv ((Frame.mem_ahead_iff.1 hu).1.symm.trans (Frame.mem_ahead_iff.1 hv).1)
  · intro v i
    rw [hbalance.mem_iff, List.mem_flatMap, ← mem_discoveries_iff]
    simp [Frame.mem_ahead_iff]

/-! ## Whole runs -/

section WholeRuns

variable {search : Search σ}

/-- If no frame is taken twice, a frame tells at which step it was taken. -/
theorem eq_of_frameAt {n j k : Nat} {frame : Frame}
    (hnodup : (framesBefore g visitor start search n).Nodup) (hj : j < n) (hk : k < n)
    (hframe : frameAt g visitor start search j = some frame)
    (hframe' : frameAt g visitor start search k = some frame) : j = k := by
  have hapart := List.pairwise_iff_getElem.1 (List.pairwise_filterMap.1 hnodup)
  have hearlier : ∀ {a b : Nat}, a < b → b < n → frameAt g visitor start search a = some frame →
      frameAt g visitor start search b ≠ some frame := by
    intro a b hab hb ha hsame
    have hlength : (List.range n).length = n := List.length_range
    exact hapart a b (by omega) (by omega) hab frame (by rwa [List.getElem_range]) frame
      (by rwa [List.getElem_range]) rfl
  rcases Nat.lt_trichotomy j k with hlt | heq | hgt
  · exact absurd hframe' (hearlier hlt hk hframe)
  · exact heq
  · exact absurd hframe (hearlier hgt hj hframe')

theorem traverse_of_halted {n : Nat} {w : Worklist σ} {outcome : Outcome σ}
    (hw : stateAt g visitor start search n = some w) (h : step g visitor w = .halted outcome) :
    traverse g visitor start search = outcome := by
  obtain ⟨flag, hstart⟩ := exists_flag_of_stateAt hw
  rw [stateAt_eq_after hstart] at hw
  rw [traverse_eq_run hstart, run_eq_of_after hw, run_of_halted h]

theorem traverse_of_missing (h : search.explored.size ≤ start) :
    traverse g visitor start search =
      .error ⟨.indexOutOfBounds search.explored.size start, search⟩ := by
  rw [traverse, enter, Array.getElem?_eq_none h]

/-- A traversal ends as the one that logs its reports, and its record is what these reports
leave. -/
theorem traverse_replayed (g : Graph) (visitor : Visitor σ) (start : Nat) (search : Search σ) :
    traverse g visitor start search =
      (traverse g Visitor.log start ⟨search.explored, #[]⟩).replayed visitor search.record := by
  rcases Nat.lt_or_ge start search.explored.size with hlt | hge
  · have hlogged : start < (⟨search.explored, #[]⟩ : Search (Array Visit)).explored.size := hlt
    obtain ⟨steps, last, -, hlast, hhalted⟩ := exists_halted_within g Visitor.log hlogged
    have hlast' : stateAt g visitor start search steps =
        some (last.replayed visitor search.record) := by
      rw [stateAt_replayed, hlast, Option.map_some]
    exact traverse_of_halted hlast' (step_replayed_of_halted hhalted)
  · have hlogged : (⟨search.explored, #[]⟩ : Search (Array Visit)).explored.size ≤ start := hge
    rw [traverse_of_missing hge, traverse_of_missing hlogged]
    rfl

/-- No frame is taken after a run has halted. -/
theorem lt_of_frameAt {m n : Nat} {final : Search σ} {frame : Frame}
    (hlast : stateAt g visitor start search m = some ⟨[], final⟩)
    (hframe : frameAt g visitor start search n = some frame) : n < m := by
  by_contra hle
  obtain ⟨k, rfl⟩ := Nat.exists_eq_add_of_le (Nat.le_of_not_lt hle)
  obtain ⟨flag, hstart⟩ := exists_flag_of_stateAt hlast
  rw [stateAt_eq_after hstart] at hlast
  rw [frameAt, stateAt_eq_after hstart, after_add, hlast, Option.bind_some] at hframe
  cases k with
  | zero => simp [after] at hframe
  | succ k => simp [after_succ_of_halted (Move.done final).step_eq] at hframe

end WholeRuns

/-- A logged traversal that ends has taken the frames of the vertices that it discovered, each
at one step, and no others. -/
theorem frames_of_traverse_log {explored : Array Bool} {final : Search (Array Visit)}
    (h : traverse g Visitor.log start ⟨explored, #[]⟩ = .ok final) :
    (∀ v i, .discover v ∈ final.record → i ≤ g.outdegree v →
        ∃! n, frameAt g Visitor.log start ⟨explored, #[]⟩ n = some ⟨v, i⟩) ∧
      ∀ n v i, frameAt g Visitor.log start ⟨explored, #[]⟩ n = some ⟨v, i⟩ →
        .discover v ∈ final.record ∧ i ≤ g.outdegree v := by
  have hstart : start < (⟨explored, #[]⟩ : Search (Array Visit)).explored.size := by
    by_contra hge
    cases h.symm.trans (traverse_of_missing (Nat.le_of_not_lt hge))
  obtain ⟨steps, last, -, hlast, hhalted⟩ := exists_halted_within g Visitor.log hstart
  rw [h] at hhalted
  -- Of the moves that halt only one is no failure, and it finds no frame.
  cases move_of_step hhalted with
  | done =>
      obtain ⟨hnodup, hmem⟩ := (accounts_stateAt hlast).settled
      constructor
      · intro v i hv hi
        obtain ⟨n, hlt, hframe⟩ := mem_framesBefore.1 ((hmem v i).2 ⟨hv, hi⟩)
        refine ⟨n, hframe, ?_⟩
        intro m hframe'
        exact eq_of_frameAt hnodup (lt_of_frameAt hlast hframe') hlt hframe' hframe
      · intro n v i hframe
        exact (hmem v i).1 (mem_framesBefore.2 ⟨n, lt_of_frameAt hlast hframe, hframe⟩)

/-- On every graph, from all flags and from every start, explored or not, the loop over the frames
comes to a halt, after no more steps than there are edges and flags, and what it halts with is what
the traversal returns; the loop is not begun where the start has no flag. A traversal that ends has
reported some visits, and has taken exactly the frames of the vertices that they discover: each such
vertex with each position up to the number of its neighbours, at one step each. -/
theorem traverse_frames (g : Graph) (visitor : Visitor σ) (start : Nat) (search : Search σ) :
    (search.explored.size ≤ start ∧
        traverse g visitor start search = .error ⟨.indexOutOfBounds search.explored.size start,
          search⟩ ∨
      ∃ steps last, steps ≤ g.edgeCount + search.explored.size ∧
        stateAt g visitor start search steps = some last ∧
        step g visitor last = .halted (traverse g visitor start search)) ∧
    ∀ final, traverse g visitor start search = .ok final →
      ∃ visits, traverse g Visitor.log start ⟨search.explored, #[]⟩ = .ok ⟨final.explored, visits⟩ ∧
        final.record = visitor.replay visits.toList search.record ∧
        (∀ v i, .discover v ∈ visits → i ≤ g.outdegree v →
          ∃! n, frameAt g visitor start search n = some ⟨v, i⟩) ∧
        ∀ n v i, frameAt g visitor start search n = some ⟨v, i⟩ → .discover v ∈ visits ∧
          i ≤ g.outdegree v := by
  constructor
  · rcases Nat.lt_or_ge start search.explored.size with hlt | hge
    · exact .inr (exists_halted_within g visitor hlt)
    · exact .inl ⟨hge, traverse_of_missing hge⟩
  · intro final h
    rw [traverse_replayed] at h
    cases hlogged : traverse g Visitor.log start ⟨search.explored, #[]⟩ with
    | error interrupted =>
        rw [hlogged] at h
        cases h
    | ok logged =>
        rw [hlogged] at h
        cases h
        obtain ⟨honce, honly⟩ := frames_of_traverse_log hlogged
        -- Which frames are taken does not depend on the visitor.
        simp only [frameAt_log g visitor start search]
        exact ⟨logged.record, rfl, rfl, honce, honly⟩

/-- A loop, a doubled edge and a cycle, from a start that is explored already: the last frame of `1`
is taken at one step, and no frame past it is. -/
theorem traverse_frames_loops :
    (⟨#[#[1, 1, 0], #[0, 2], #[]]⟩ : Graph).outdegree 1 = 2 ∧
      (∃! n, frameAt ⟨#[#[1, 1, 0], #[0, 2], #[]]⟩ Visitor.log 0 ⟨#[true, false, false], #[]⟩ n =
        some ⟨1, 2⟩) ∧
      ∀ n, frameAt ⟨#[#[1, 1, 0], #[0, 2], #[]]⟩ Visitor.log 0 ⟨#[true, false, false], #[]⟩ n ≠
        some ⟨1, 3⟩ := by
  have hdegree : (⟨#[#[1, 1, 0], #[0, 2], #[]]⟩ : Graph).outdegree 1 = 2 := rfl
  have hrun : traverse ⟨#[#[1, 1, 0], #[0, 2], #[]]⟩ Visitor.log 0 ⟨#[true, false, false], #[]⟩ =
      .ok ⟨#[true, true, true],
        #[.discover 0, .discover 1, .discover 2, .finish 2, .finish 1, .finish 0]⟩ := by cbv
  obtain ⟨-, htakes⟩ :=
    traverse_frames ⟨#[#[1, 1, 0], #[0, 2], #[]]⟩ Visitor.log 0 ⟨#[true, false, false], #[]⟩
  obtain ⟨visits, hvisits, -, honce, honly⟩ := htakes _ hrun
  cases hrun.symm.trans hvisits
  refine ⟨hdegree, honce 1 2 (by simp) (Nat.le_of_eq hdegree.symm), ?_⟩
  intro n hframe
  have hle := (honly n 1 3 hframe).2
  rw [hdegree] at hle
  omega

end Worklist

end StrongComponents
