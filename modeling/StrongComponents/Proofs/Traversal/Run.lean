import StrongComponents.Traversal.Worklist

/-!
# The states of a worklist run

`Worklist.stateAt` is the state of a traversal after a number of steps, and `run_eq_of_after` says
that the outcome can be read off from any of these states. What every step keeps holds at all of
them (`invariant_after`). `Visitor.replay` is the record that a list of reports leaves, so a
traversal's record can be compared with its reports (`run_replay`).
-/

set_option autoImplicit false

namespace StrongComponents

variable {σ : Type}

namespace Visitor

/-- The record after one report. -/
def report (visitor : Visitor σ) (record : σ) : Visit → σ
  | .discover v => visitor.discover v record
  | .finish v => visitor.finish v record

/-- The record after a list of reports. -/
def replay (visitor : Visitor σ) (visits : List Visit) (record : σ) : σ :=
  visits.foldl visitor.report record

@[simp] theorem replay_nil (visitor : Visitor σ) (record : σ) :
    visitor.replay [] record = record := rfl

@[simp] theorem replay_cons (visitor : Visitor σ) (visit : Visit) (visits : List Visit)
    (record : σ) :
    visitor.replay (visit :: visits) record = visitor.replay visits (visitor.report record visit) :=
      rfl

@[simp] theorem replay_append (visitor : Visitor σ) (front back : List Visit) (record : σ) :
    visitor.replay (front ++ back) record = visitor.replay back (visitor.replay front record) :=
  List.foldl_append

/-- The log of reports is the reports themselves. -/
theorem replay_log (visits : List Visit) :
    ∀ record : Array Visit, log.replay visits record = record ++ visits.toArray := by
  induction visits with
  | nil => simp
  | cons visit visits ih =>
      intro record
      rw [replay_cons, ih]
      cases visit <;> simp [report, log]

end Visitor

/-- The state in which a traversal ended or was interrupted. -/
def Outcome.search : Outcome σ → Search σ
  | .ok search => search
  | .error interrupted => interrupted.search

namespace Worklist

variable {g : Graph} {visitor : Visitor σ}

/-! ## Whole runs -/

theorem run_of_step {w next : Worklist σ} (h : step g visitor w = .running next) :
    run g visitor w = run g visitor next := by
  rw [run]
  split
  · rename_i outcome h'
    rw [h] at h'
    cases h'
  · rename_i next' h'
    rw [h] at h'
    cases h'
    rfl

theorem run_of_halted {w : Worklist σ} {outcome : Outcome σ}
    (h : step g visitor w = .halted outcome) : run g visitor w = outcome := by
  rw [run]
  split
  · rename_i outcome' h'
    rw [h] at h'
    cases h'
    rfl
  · rename_i next h'
    rw [h] at h'
    cases h'

/-- What holds where a run halts and is handed back by every step holds at the start of the run. -/
theorem run_induction (g : Graph) (visitor : Visitor σ) {motive : Worklist σ → Prop}
    (halted : ∀ w outcome, step g visitor w = .halted outcome → motive w)
    (running : ∀ w next, step g visitor w = .running next → motive next → motive w)
    (w : Worklist σ) : motive w := by
  induction hwork : work g w using Nat.strongRecOn generalizing w with
  | ind n ih =>
      cases hstep : step g visitor w with
      | halted outcome => exact halted w outcome hstep
      | running next =>
          have hless := work_step hstep
          exact running w next hstep (ih (work g next) (by omega) next rfl)

/-- The state after a number of steps, if the run gets that far. -/
def after (g : Graph) (visitor : Visitor σ) : Nat → Worklist σ → Option (Worklist σ)
  | 0, w => some w
  | n + 1, w =>
    match step g visitor w with
    | .running next => after g visitor n next
    | .halted _ => none

theorem after_succ_of_step {w next : Worklist σ} (h : step g visitor w = .running next) (n : Nat) :
    after g visitor (n + 1) w = after g visitor n next := by
  simp [after, h]

theorem after_succ_of_halted {w : Worklist σ} {outcome : Outcome σ}
    (h : step g visitor w = .halted outcome) (n : Nat) : after g visitor (n + 1) w = none := by
  simp [after, h]

theorem after_add (m n : Nat) :
    ∀ w : Worklist σ, after g visitor (m + n) w =
      (after g visitor m w).bind (after g visitor n) := by
  induction m with
  | zero => intro w; simp [after]
  | succ m ih =>
      intro w
      rw [show m + 1 + n = m + n + 1 by omega]
      cases hstep : step g visitor w with
      | halted outcome => simp [after_succ_of_halted hstep]
      | running next => rw [after_succ_of_step hstep, after_succ_of_step hstep, ih]

/-- What every step keeps holds at every later state of a run. -/
theorem invariant_after (invariant : Worklist σ → Prop)
    (hkeep : ∀ w next, step g visitor w = .running next → invariant w → invariant next) (n : Nat) :
    ∀ {w later : Worklist σ}, after g visitor n w = some later → invariant w → invariant later := by
  induction n with
  | zero =>
      intro w later h hw
      cases h
      exact hw
  | succ n ih =>
      intro w later h hw
      cases hstep : step g visitor w with
      | halted outcome => simp [after_succ_of_halted hstep] at h
      | running next =>
          rw [after_succ_of_step hstep] at h
          exact ih h (hkeep w next hstep hw)

/-- Every state of a run has the outcome of the run ahead of it. -/
theorem run_eq_of_after {n : Nat} {w later : Worklist σ} (h : after g visitor n w = some later) :
    run g visitor w = run g visitor later := by
  refine invariant_after (fun state => run g visitor w = run g visitor state) ?_ n h rfl
  intro state next hstep hstate
  rw [hstate, run_of_step hstep]

/-- The state of the traversal from `start` after a number of steps, if it gets that far. -/
def stateAt (g : Graph) (visitor : Visitor σ) (start : Nat) (search : Search σ) (n : Nat) :
    Option (Worklist σ) :=
  match enter visitor start search with
  | .error _ => none
  | .ok w => after g visitor n w

/-- The reports of a step: none, a finished vertex or a discovered one. -/
theorem step_replay {w next : Worklist σ} (h : step g visitor w = .running next) :
    ∃ visits, next.search.record = visitor.replay visits w.search.record := by
  cases move_of_step h with
  | @finish v => exact ⟨[.finish v], rfl⟩
  | skip => exact ⟨[], rfl⟩
  | @descend v i target => exact ⟨[.discover target], rfl⟩

/-- The record at the end of a run is the record of any state before it with further reports
added. -/
theorem run_replay (g : Graph) (visitor : Visitor σ) (w : Worklist σ) :
    ∃ visits, (run g visitor w).search.record = visitor.replay visits w.search.record := by
  induction w using run_induction g visitor with
  | halted w outcome h =>
      refine ⟨[], ?_⟩
      rw [run_of_halted h]
      cases move_of_step h <;> rfl
  | running w next h ih =>
      obtain ⟨front, hfront⟩ := step_replay h
      obtain ⟨back, hback⟩ := ih
      refine ⟨front ++ back, ?_⟩
      rw [run_of_step h, hback, hfront, Visitor.replay_append]

/-- A run never has more frames than work ahead of it. -/
theorem length_frames_le_work (w : Worklist σ) : w.frames.length ≤ work g w := by
  have hframes : ∀ frames : List Frame, frames.length ≤ framesWork g frames := by
    intro frames
    induction frames with
    | nil => exact Nat.le_refl 0
    | cons frame frames ih =>
        simp only [List.length_cons, framesWork, frameWork]
        omega
  have hall := hframes w.frames
  simp only [work]
  omega

theorem work_after_le {n : Nat} {w later : Worklist σ} (h : after g visitor n w = some later) :
    work g later ≤ work g w := by
  refine invariant_after (fun state => work g state ≤ work g w) ?_ n h (Nat.le_refl _)
  intro state next hstep hstate
  have hless := work_step hstep
  omega

end Worklist

end StrongComponents
