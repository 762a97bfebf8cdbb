import StrongComponents.Proofs.Traversal.Run
import StrongComponents.Traversal.Strategy

/-!
# Nested calls are a worklist run cut at a height

A traversal by nested calls of depth at most `limit` does what the worklist run does as long as
the run has no more than `limit` frames, on every graph and from every state, malformed ones
included. The simulation (`scan_follows`, `visit_follows`) follows nested calls through the
states of the run; the frames outside the present call stay as they are. At the moment at which
the run would get `limit + 1` frames, nested calls give up, with the flags and the record that
the run has before that step.
-/

set_option autoImplicit false

namespace StrongComponents

variable {σ : Type}

/-- Nested calls go down one level of the room left at a time: what holds at a depth if it holds one
level further in, where there is one, holds at every depth. -/
theorem Nested.room_induction {motive : Nat → Prop}
    (level : ∀ room, (∀ inner, room = inner + 1 → motive inner) → motive room) (room : Nat) :
    motive room := by
  induction room with
  | zero => exact level 0 fun inner h => absurd h (Nat.succ_ne_zero inner).symm
  | succ room ih =>
      refine level (room + 1) fun inner h => ?_
      cases h
      exact ih

namespace Worklist

variable {g : Graph} {visitor : Visitor σ} {limit : Nat}

/-- Steps lead from the first state to the second, through states of at most `limit` frames. -/
inductive Travels (g : Graph) (visitor : Visitor σ) (limit : Nat) :
    Worklist σ → Worklist σ → Prop where
  | refl {w : Worklist σ} : w.frames.length ≤ limit → Travels g visitor limit w w
  | head {w next last : Worklist σ} :
      w.frames.length ≤ limit → step g visitor w = .running next →
      Travels g visitor limit next last → Travels g visitor limit w last

namespace Travels

theorem trans {w middle last : Worklist σ} (h : Travels g visitor limit w middle)
    (h' : Travels g visitor limit middle last) : Travels g visitor limit w last := by
  induction h with
  | refl _ => exact h'
  | head hheight hstep _ ih => exact .head hheight hstep (ih h')

/-- The last state is reached after a number of steps, and no state up to it is too high. -/
theorem exists_after {w last : Worklist σ} (h : Travels g visitor limit w last) :
    ∃ n, after g visitor n w = some last ∧
      ∀ i ≤ n, ∀ state, after g visitor i w = some state → state.frames.length ≤ limit := by
  induction h with
  | @refl w hheight =>
      refine ⟨0, rfl, ?_⟩
      intro i hi state hstate
      obtain rfl : i = 0 := by omega
      cases hstate
      exact hheight
  | @head w next last hheight hstep _ ih =>
      obtain ⟨n, hlast, hheights⟩ := ih
      refine ⟨n + 1, by rw [after_succ_of_step hstep, hlast], ?_⟩
      intro i hi state hstate
      cases i with
      | zero =>
          cases hstate
          exact hheight
      | succ i =>
          rw [after_succ_of_step hstep] at hstate
          exact hheights i (by omega) state hstate

end Travels

/-- Why nested calls of depth `limit` stop at a state of the run: the run itself is interrupted
there, or its next step adds a frame for a vertex to the `limit` frames that it then has. -/
inductive Stops (g : Graph) (visitor : Visitor σ) (limit : Nat) :
    Worklist σ → Interrupted σ → Prop where
  | halt {w : Worklist σ} {interrupted : Interrupted σ} :
      step g visitor w = .halted (.error interrupted) → Stops g visitor limit w interrupted
  | full {w : Worklist σ} {target : Nat} {frames : List Frame} :
      w.frames.length = limit → frames.length = limit →
      w.search.explored[target]? = some false →
      step g visitor w = .running ⟨⟨target, 0⟩ :: frames, w.search.discover visitor target⟩ →
      Stops g visitor limit w ⟨.depthExceeded limit target, w.search⟩

/-- The run from a state follows nested calls to their outcome: to the given state where they end,
and to the place where they stop. -/
def Follows (g : Graph) (visitor : Visitor σ) (limit : Nat) (w : Worklist σ)
    (goal : Search σ → Worklist σ) : Outcome σ → Prop
  | .ok search => Travels g visitor limit w (goal search)
  | .error interrupted =>
      ∃ last, Travels g visitor limit w last ∧ Stops g visitor limit last interrupted

theorem Follows.of_travels {w middle : Worklist σ} {goal : Search σ → Worklist σ}
    {outcome : Outcome σ} (h : Travels g visitor limit w middle)
    (h' : Follows g visitor limit middle goal outcome) :
    Follows g visitor limit w goal outcome := by
  cases outcome with
  | ok search => exact h.trans h'
  | error interrupted =>
      obtain ⟨last, htravels, hstops⟩ := h'
      exact ⟨last, h.trans htravels, hstops⟩

theorem Follows.of_stops {w : Worklist σ} {goal : Search σ → Worklist σ}
    {interrupted : Interrupted σ} (hheight : w.frames.length ≤ limit)
    (h : Stops g visitor limit w interrupted) :
    Follows g visitor limit w goal (.error interrupted) :=
  ⟨w, .refl hheight, h⟩

/-! ## The simulation -/

/-- The run follows the scan of the neighbours of `v` that come after the first few, from the frame
that stands after those to the frame that stands after all of them. -/
def FollowsScan (g : Graph) (visitor : Visitor σ) (limit room : Nat) : Prop :=
  ∀ (rest front : List Nat) (v : Nat) (neighbors : Array Nat) (outer : List Frame)
    (search : Search σ),
    g.adjacency[v]? = some neighbors → neighbors.toList = front ++ rest →
    outer.length + 1 + room = limit →
    Follows g visitor limit ⟨⟨v, front.length⟩ :: outer, search⟩
      (fun final => ⟨⟨v, neighbors.size⟩ :: outer, final⟩)
      (Nested.scan g visitor limit room rest search)

/-- With the scans of one depth followed, the visits of that depth are followed too. -/
theorem visit_follows {room : Nat} (hscan : FollowsScan g visitor limit room) {v : Nat}
    {flag : Bool} {outer : List Frame} {search : Search σ} (hflag : search.explored[v]? = some flag)
    (hroom : outer.length + 1 + room = limit) :
    Follows g visitor limit ⟨⟨v, 0⟩ :: outer, search.discover visitor v⟩
      (fun final => ⟨outer, final⟩) (Nested.visit g visitor limit room v search) := by
  have hheight : outer.length + 1 ≤ limit := by omega
  rw [Nested.visit]
  simp only [hflag]
  cases hadj : g.adjacency[v]? with
  | none => exact .of_stops hheight (.halt (Move.missing hadj).step_eq)
  | some neighbors =>
      have hbody :=
        hscan neighbors.toList [] v neighbors outer (search.discover visitor v) hadj rfl hroom
      simp only
      cases hresult : Nested.scan g visitor limit room neighbors.toList (search.discover visitor v)
        with
      | error interrupted =>
          rw [hresult] at hbody
          exact hbody
      | ok final =>
          rw [hresult] at hbody
          have hend : neighbors[neighbors.size]? = none := by simp
          have hlast : Travels g visitor limit ⟨⟨v, neighbors.size⟩ :: outer, final⟩
              ⟨outer, final.finish visitor v⟩ :=
            .head hheight (Move.finish hadj hend).step_eq
              (.refl (by show outer.length ≤ limit; omega))
          exact Travels.trans hbody hlast

/-- With the scans one level further in followed, the scans of a depth are followed too. -/
theorem followsScan_of_inner {room : Nat}
    (hinner : ∀ inner, room = inner + 1 → FollowsScan g visitor limit inner) :
    FollowsScan g visitor limit room := by
  intro rest
  induction rest with
  | nil =>
      intro front v neighbors outer search hadj hsplit hroom
      have hsize : neighbors.size = front.length := by
        rw [← Array.length_toList, hsplit, List.append_nil]
      rw [Nested.scan, hsize]
      exact Travels.refl (by show outer.length + 1 ≤ limit; omega)
  | cons target rest ih =>
      intro front v neighbors outer search hadj hsplit hroom
      have hheight : outer.length + 1 ≤ limit := by omega
      have hnext : neighbors[front.length]? = some target := by
        rw [← Array.getElem?_toList, hsplit]
        simp
      have hsplit' : neighbors.toList = (front ++ [target]) ++ rest := by simpa using hsplit
      have hlength : (front ++ [target]).length = front.length + 1 := by simp
      rw [Nested.scan.eq_def]
      simp only
      cases hflag : search.explored[target]? with
      | none => exact .of_stops hheight (.halt (Move.stray hadj hnext hflag).step_eq)
      | some flag =>
          cases flag with
          | true =>
              have hrest := ih (front ++ [target]) v neighbors outer search hadj hsplit' hroom
              rw [hlength] at hrest
              exact .of_travels (.head hheight (Move.skip hadj hnext hflag).step_eq (.refl hheight))
                hrest
          | false =>
              have hstep : step g visitor ⟨⟨v, front.length⟩ :: outer, search⟩ =
                  .running ⟨⟨target, 0⟩ :: ⟨v, front.length + 1⟩ :: outer,
                    search.discover visitor target⟩ :=
                (Move.descend hadj hnext hflag).step_eq
              cases room with
              | zero =>
                  -- No room is left: the run steps on where nested calls give up.
                  refine .of_stops hheight (.full ?_ ?_ hflag hstep)
                  · show outer.length + 1 = limit; omega
                  · show outer.length + 1 = limit; omega
              | succ inner =>
                  have hdeeper : (⟨v, front.length + 1⟩ :: outer : List Frame).length + 1 + inner =
                      limit := by
                    simp only [List.length_cons]; omega
                  have hvisit := visit_follows (hinner inner rfl) hflag hdeeper
                  have henter :=
                    Follows.of_travels (.head hheight hstep
                      (.refl (by show outer.length + 1 + 1 ≤ limit; omega))) hvisit
                  simp only
                  cases hresult : Nested.visit g visitor limit inner target search with
                  | error interrupted =>
                      rw [hresult] at henter
                      exact henter
                  | ok final =>
                      rw [hresult] at henter
                      have hrest :=
                        ih (front ++ [target]) v neighbors outer final hadj hsplit' hroom
                      rw [hlength] at hrest
                      exact .of_travels henter hrest

/-- The run follows the scans of every depth. -/
theorem scan_follows (g : Graph) (visitor : Visitor σ) (limit room : Nat) :
    FollowsScan g visitor limit room :=
  Nested.room_induction (fun _ hinner => followsScan_of_inner hinner) room

/-! ## Runs that stay below the limit, and runs that pass it -/

/-- The traversal from `start` never has more than `limit` frames. -/
def StaysWithin (g : Graph) (visitor : Visitor σ) (limit start : Nat) (search : Search σ) : Prop :=
  ∀ n state, stateAt g visitor start search n = some state → state.frames.length ≤ limit

theorem Travels.run_eq {w last : Worklist σ} (h : Travels g visitor limit w last) :
    run g visitor w = run g visitor last := by
  obtain ⟨n, hlast, -⟩ := h.exists_after
  exact run_eq_of_after hlast

/-- A run that halts where it has travelled to within the limit stays within the limit for good. -/
theorem Travels.heights_of_halted {w last : Worklist σ} {outcome : Outcome σ}
    (h : Travels g visitor limit w last) (hhalted : step g visitor last = .halted outcome) :
    ∀ n state, after g visitor n w = some state → state.frames.length ≤ limit := by
  obtain ⟨m, hlast, hheights⟩ := h.exists_after
  intro n state hstate
  rcases Nat.lt_or_ge m n with hmn | hnm
  · -- There is no state after the one that halts.
    obtain ⟨k, rfl⟩ : ∃ k, n = m + (k + 1) := ⟨n - m - 1, by omega⟩
    rw [after_add, hlast] at hstate
    simp [after_succ_of_halted hhalted] at hstate
  · exact hheights n hnm state hstate

/-- Nested calls whose run stays within the limit have the outcome of the run. -/
theorem Follows.eq_run {w : Worklist σ} {outcome : Outcome σ}
    (h : Follows g visitor limit w (fun final => ⟨[], final⟩) outcome)
    (hwithin : ∀ n state, after g visitor n w = some state → state.frames.length ≤ limit) :
    outcome = run g visitor w := by
  cases outcome with
  | ok search =>
      rw [Travels.run_eq h]
      exact (run_of_halted rfl).symm
  | error interrupted =>
      obtain ⟨last, htravels, hstops⟩ := h
      cases hstops with
      | halt hstep => rw [htravels.run_eq, run_of_halted hstep]
      | @full target frames _ hframes _ hstep =>
          -- The state after the one at which nested calls give up is too high.
          obtain ⟨n, hlast, -⟩ := htravels.exists_after
          have hnext : after g visitor (n + 1) w =
              some ⟨⟨target, 0⟩ :: frames, last.search.discover visitor target⟩ := by
            rw [after_add, hlast, Option.bind_some, after_succ_of_step hstep, after]
          have htoo := hwithin (n + 1) _ hnext
          simp only [List.length_cons] at htoo
          omega

/-- Nested calls whose run passes the limit are refused a vertex at the last state before it
does. -/
theorem Follows.exists_full {w : Worklist σ} {outcome : Outcome σ}
    (h : Follows g visitor limit w (fun final => ⟨[], final⟩) outcome)
    (hbeyond : ¬ ∀ n state, after g visitor n w = some state → state.frames.length ≤ limit) :
    ∃ n state target frames, after g visitor n w = some state ∧
      (∀ i ≤ n, ∀ state, after g visitor i w = some state → state.frames.length ≤ limit) ∧
      after g visitor (n + 1) w = some ⟨⟨target, 0⟩ :: frames,
        state.search.discover visitor target⟩ ∧
      frames.length = limit ∧ state.search.explored[target]? = some false ∧
      outcome = .error ⟨.depthExceeded limit target, state.search⟩ := by
  cases outcome with
  | ok search => exact absurd (Travels.heights_of_halted h rfl) hbeyond
  | error interrupted =>
      obtain ⟨last, htravels, hstops⟩ := h
      cases hstops with
      | halt hstep => exact absurd (htravels.heights_of_halted hstep) hbeyond
      | @full target frames _ hframes hflag hstep =>
          obtain ⟨n, hlast, hheights⟩ := htravels.exists_after
          refine ⟨n, last, target, frames, hlast, hheights, ?_, hframes, hflag, rfl⟩
          rw [after_add, hlast, Option.bind_some, after_succ_of_step hstep, after]

theorem enter_eq_ok {start : Nat} {search : Search σ} {flag : Bool}
    (h : search.explored[start]? = some flag) :
    enter visitor start search = .ok ⟨[⟨start, 0⟩], search.discover visitor start⟩ := by
  simp [enter, h]

theorem stateAt_eq_after {start : Nat} {search : Search σ} {flag : Bool}
    (h : search.explored[start]? = some flag) (n : Nat) :
    stateAt g visitor start search n =
      after g visitor n ⟨[⟨start, 0⟩], search.discover visitor start⟩ := by
  simp [stateAt, enter_eq_ok h]

theorem traverse_eq_run {start : Nat} {search : Search σ} {flag : Bool}
    (h : search.explored[start]? = some flag) :
    traverse g visitor start search =
      run g visitor ⟨[⟨start, 0⟩], search.discover visitor start⟩ := by
  simp [traverse, enter_eq_ok h]

/-- The run from an existing vertex follows the nested calls from it. -/
theorem traverse_follows (g : Graph) (visitor : Visitor σ) (room : Nat) {start : Nat}
    {search : Search σ} {flag : Bool} (h : search.explored[start]? = some flag) :
    Follows g visitor (room + 1) ⟨[⟨start, 0⟩], search.discover visitor start⟩
      (fun final => ⟨[], final⟩) (Nested.traverse g visitor (room + 1) start search) :=
  visit_follows (scan_follows g visitor (room + 1) room) h
    (by simp only [List.length_nil]; omega)

end Worklist

namespace Graph

/-- Past the end of the flags both strategies fail alike. -/
theorem traverseInPlace_missing {g : Graph} {visitor : Visitor σ} {start limit : Nat}
    {search : Search σ} (hstart : search.explored[start]? = none) (hlimit : 1 ≤ limit) :
    g.traverseInPlace (.recursive limit) visitor start search =
      g.traverseInPlace .iterative visitor start search := by
  obtain ⟨room, rfl⟩ : ∃ room, limit = room + 1 := ⟨limit - 1, by omega⟩
  simp only [traverseInPlace, Nested.traverse, Worklist.traverse, Worklist.enter, hstart]
  rw [Nested.visit]
  simp only [hstart]

/-- Within the limit, nested calls and the worklist have one outcome: the same end or the same
failure, the same flags and the same record. -/
theorem traverseInPlace_recursive_eq {g : Graph} {visitor : Visitor σ} {limit start : Nat}
    {search : Search σ} (hlimit : 1 ≤ limit)
    (hwithin : Worklist.StaysWithin g visitor limit start search) :
    g.traverseInPlace (.recursive limit) visitor start search =
      g.traverseInPlace .iterative visitor start search := by
  cases hstart : search.explored[start]? with
  | none => exact traverseInPlace_missing hstart hlimit
  | some flag =>
      obtain ⟨room, rfl⟩ : ∃ room, limit = room + 1 := ⟨limit - 1, by omega⟩
      have hfollows := Worklist.traverse_follows g visitor room hstart
      simp only [traverseInPlace]
      rw [Worklist.traverse_eq_run hstart]
      apply hfollows.eq_run
      intro n state hstate
      apply hwithin n state
      rw [Worklist.stateAt_eq_after hstart, hstate]

/-- A traversal by nested calls of depth at most `limit` is the worklist run cut at the first moment
at which the run would have `limit + 1` frames. If that never happens, both have the same outcome,
with the same flags and the same record. Otherwise nested calls are refused the vertex that the run
would put on top of `limit` frames, with the flags and the record that the run has just before, and
what the run reports in all is that record with later reports added. -/
theorem traverseInPlace_recursive_cut (g : Graph) (visitor : Visitor σ) (limit start : Nat)
    (search : Search σ) (hlimit : 1 ≤ limit) :
    (Worklist.StaysWithin g visitor limit start search →
      g.traverseInPlace (.recursive limit) visitor start search =
        g.traverseInPlace .iterative visitor start search) ∧
    (¬ Worklist.StaysWithin g visitor limit start search →
      ∃ n before target frames,
        Worklist.stateAt g visitor start search n = some before ∧
        (∀ i ≤ n, ∀ state, Worklist.stateAt g visitor start search i = some state →
          state.frames.length ≤ limit) ∧
        Worklist.stateAt g visitor start search (n + 1) =
          some ⟨⟨target, 0⟩ :: frames, before.search.discover visitor target⟩ ∧
        frames.length = limit ∧
        g.traverseInPlace (.recursive limit) visitor start search =
          .error ⟨.depthExceeded limit target, before.search⟩ ∧
        before.search.explored[target]? = some false ∧
        ∃ later, (g.traverseInPlace .iterative visitor start search).search.record =
          visitor.replay later before.search.record) := by
  refine ⟨traverseInPlace_recursive_eq hlimit, fun hbeyond => ?_⟩
  cases hstart : search.explored[start]? with
  | none =>
      -- Past the end of the flags there is no run, so none that gets too high.
      refine absurd ?_ hbeyond
      intro n state hstate
      simp [Worklist.stateAt, Worklist.enter, hstart] at hstate
  | some flag =>
      obtain ⟨room, rfl⟩ : ∃ room, limit = room + 1 := ⟨limit - 1, by omega⟩
      have hfollows := Worklist.traverse_follows g visitor room hstart
      simp only [Worklist.StaysWithin, Worklist.stateAt_eq_after hstart] at hbeyond ⊢
      obtain ⟨n, before, target, frames, hbefore, hheights, hnext, hframes, hflag, heq⟩ :=
        hfollows.exists_full hbeyond
      obtain ⟨later, hlater⟩ := Worklist.run_replay g visitor before
      refine ⟨n, before, target, frames, hbefore, hheights, hnext, hframes, heq, hflag, later, ?_⟩
      simp only [traverseInPlace]
      rw [Worklist.traverse_eq_run hstart, Worklist.run_eq_of_after hbefore, hlater]

/-- On the path `0 → 1 → 2` the run gets a third frame, so nested calls of depth two are cut. -/
theorem traverseInPlace_recursive_cut_path :
    1 ≤ 2 ∧ ¬ Worklist.StaysWithin ⟨#[#[1], #[2], #[]]⟩ Visitor.log 2 0 (Search.fresh 3 #[]) ∧
      ∃ target search, (⟨#[#[1], #[2], #[]]⟩ : Graph).traverseInPlace (.recursive 2) Visitor.log 0
        (Search.fresh 3 #[]) = .error ⟨.depthExceeded 2 target, search⟩ := by
  have hbeyond : ¬ Worklist.StaysWithin ⟨#[#[1], #[2], #[]]⟩ Visitor.log 2 0
      (Search.fresh 3 #[]) := by
    intro hwithin
    have htoo := hwithin 2 ⟨[⟨2, 0⟩, ⟨1, 1⟩, ⟨0, 1⟩],
      ⟨#[true, true, true], #[.discover 0, .discover 1, .discover 2]⟩⟩ rfl
    simp at htoo
  obtain ⟨n, before, target, frames, -, -, -, -, hcut, -⟩ :=
    (traverseInPlace_recursive_cut ⟨#[#[1], #[2], #[]]⟩ Visitor.log 2 0 (Search.fresh 3 #[])
      (by decide)).2 hbeyond
  exact ⟨by decide, hbeyond, target, before.search, hcut⟩

end Graph

end StrongComponents
