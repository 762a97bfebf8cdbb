import StrongComponents.Traversal.Basic

/-!
# Traversal with a list of entered vertices

The entered and unfinished vertices stand in a list of frames, innermost first. A frame is a
vertex with the position of the neighbour to look at next. `Worklist.step` takes the innermost
frame: it goes on to the next neighbour, enters that neighbour if it is unexplored, or finishes
the vertex when no neighbour is left.

`Worklist.Move` lists what a step can do, with everything it looks up; statements about steps go
through `step_move` and do not open the step function again.

`Worklist.work` counts the frames that are still to be taken, and `work_step` says that each step
uses up exactly one of them. Hence `Worklist.run` ends on every graph, from every state.
-/

set_option autoImplicit false

namespace StrongComponents

/-- An entered vertex and the position of its next neighbour. -/
structure Frame where
  vertex : Nat
  next : Nat
deriving DecidableEq

/-- A traversal under way: the frames, innermost first, and the search state. -/
structure Worklist (σ : Type) where
  frames : List Frame
  search : Search σ

namespace Worklist

variable {σ : Type}

/-- What a step leads to. -/
inductive Progress (σ : Type) where
  | running (next : Worklist σ)
  | halted (outcome : Outcome σ)

/-- Takes the innermost frame. -/
def step (g : Graph) (visitor : Visitor σ) : Worklist σ → Progress σ
  | ⟨[], search⟩ => .halted (.ok search)
  | ⟨frame :: outer, search⟩ =>
    match g.adjacency[frame.vertex]? with
    -- Only a search with more flags than the graph has vertices gets here.
    | none => .halted (.error ⟨.indexOutOfBounds g.adjacency.size frame.vertex, search⟩)
    | some targets =>
      match targets[frame.next]? with
      | none => .running ⟨outer, search.finish visitor frame.vertex⟩
      | some target =>
        match search.explored[target]? with
        | none => .halted (.error ⟨.indexOutOfBounds search.explored.size target, search⟩)
        | some true => .running ⟨⟨frame.vertex, frame.next + 1⟩ :: outer, search⟩
        | some false =>
          .running ⟨⟨target, 0⟩ :: ⟨frame.vertex, frame.next + 1⟩ :: outer,
            search.discover visitor target⟩

/-! ## What a step can do -/

variable {g : Graph} {visitor : Visitor σ}

/-- What a step can do from a state, and what it found there. -/
inductive Move (g : Graph) (visitor : Visitor σ) : Worklist σ → Progress σ → Prop where
  | done (search : Search σ) : Move g visitor ⟨[], search⟩ (.halted (.ok search))
  | missing {v i : Nat} {outer : List Frame} {search : Search σ} :
      g.adjacency[v]? = none →
      Move g visitor ⟨⟨v, i⟩ :: outer, search⟩
        (.halted (.error ⟨.indexOutOfBounds g.adjacency.size v, search⟩))
  | finish {v i : Nat} {outer : List Frame} {search : Search σ} {neighbors : Array Nat} :
      g.adjacency[v]? = some neighbors → neighbors[i]? = none →
      Move g visitor ⟨⟨v, i⟩ :: outer, search⟩ (.running ⟨outer, search.finish visitor v⟩)
  | stray {v i target : Nat} {outer : List Frame} {search : Search σ} {neighbors : Array Nat} :
      g.adjacency[v]? = some neighbors → neighbors[i]? = some target →
      search.explored[target]? = none →
      Move g visitor ⟨⟨v, i⟩ :: outer, search⟩
        (.halted (.error ⟨.indexOutOfBounds search.explored.size target, search⟩))
  | skip {v i target : Nat} {outer : List Frame} {search : Search σ} {neighbors : Array Nat} :
      g.adjacency[v]? = some neighbors → neighbors[i]? = some target →
      search.explored[target]? = some true →
      Move g visitor ⟨⟨v, i⟩ :: outer, search⟩ (.running ⟨⟨v, i + 1⟩ :: outer, search⟩)
  | descend {v i target : Nat} {outer : List Frame} {search : Search σ} {neighbors : Array Nat} :
      g.adjacency[v]? = some neighbors → neighbors[i]? = some target →
      search.explored[target]? = some false →
      Move g visitor ⟨⟨v, i⟩ :: outer, search⟩
        (.running ⟨⟨target, 0⟩ :: ⟨v, i + 1⟩ :: outer, search.discover visitor target⟩)

/-- A move is what the step does. -/
theorem Move.step_eq {w : Worklist σ} {progress : Progress σ} (h : Move g visitor w progress) :
    step g visitor w = progress := by
  cases h with
  | done => rfl
  | missing hadj => simp [step, hadj]
  | finish hadj hnext => simp [step, hadj, hnext]
  | stray hadj hnext hflag => simp [step, hadj, hnext, hflag]
  | skip hadj hnext hflag => simp [step, hadj, hnext, hflag]
  | descend hadj hnext hflag => simp [step, hadj, hnext, hflag]

/-- A step is one of the moves. -/
theorem step_move (w : Worklist σ) : Move g visitor w (step g visitor w) := by
  obtain ⟨frames, search⟩ := w
  cases frames with
  | nil => exact .done search
  | cons frame outer =>
      obtain ⟨v, i⟩ := frame
      -- The looked-up values select the move, and the move determines the step.
      have taken : ∀ {progress}, Move g visitor ⟨⟨v, i⟩ :: outer, search⟩ progress →
          Move g visitor ⟨⟨v, i⟩ :: outer, search⟩ (step g visitor ⟨⟨v, i⟩ :: outer, search⟩) :=
        fun h => h.step_eq.symm ▸ h
      cases hadj : g.adjacency[v]? with
      | none => exact taken (.missing hadj)
      | some neighbors =>
          cases hnext : neighbors[i]? with
          | none => exact taken (.finish hadj hnext)
          | some target =>
              cases hflag : search.explored[target]? with
              | none => exact taken (.stray hadj hnext hflag)
              | some flag =>
                  cases flag with
                  | true => exact taken (.skip hadj hnext hflag)
                  | false => exact taken (.descend hadj hnext hflag)

theorem move_of_step {w : Worklist σ} {progress : Progress σ} (h : step g visitor w = progress) :
    Move g visitor w progress :=
  h ▸ step_move w

/-! ## The work ahead -/

/-- Frames still to be taken for the unexplored vertices of `flags`, which start at vertex `v`. -/
def unexploredWork (g : Graph) : List Bool → Nat → Nat
  | [], _ => 0
  | flag :: flags, v => (if flag then 0 else g.outdegree v + 1) + unexploredWork g flags (v + 1)

/-- Frames still to be taken for one entered vertex. -/
def frameWork (g : Graph) (frame : Frame) : Nat := g.outdegree frame.vertex - frame.next + 1

/-- Frames still to be taken for the entered vertices. -/
def framesWork (g : Graph) : List Frame → Nat
  | [] => 0
  | frame :: outer => frameWork g frame + framesWork g outer

/-- Frames still to be taken in all. -/
def work (g : Graph) (w : Worklist σ) : Nat :=
  unexploredWork g w.search.explored.toList 0 + framesWork g w.frames

theorem unexploredWork_set (g : Graph) :
    ∀ (flags : List Bool) (v i : Nat), flags[i]? = some false →
      unexploredWork g (flags.set i true) v + (g.outdegree (v + i) + 1) =
        unexploredWork g flags v := by
  intro flags
  induction flags with
  | nil => intro v i h; simp at h
  | cons flag flags ih =>
      intro v i h
      cases i with
      | zero =>
          simp only [List.getElem?_cons_zero, Option.some.injEq] at h
          subst h
          simp [unexploredWork]; omega
      | succ i =>
          simp only [List.getElem?_cons_succ] at h
          have := ih (v + 1) i h
          rw [show v + 1 + i = v + (i + 1) by omega] at this
          simp only [List.set_cons_succ, unexploredWork]
          omega

/-- Each step uses up one frame of the remaining work. -/
theorem work_step {w next : Worklist σ} (h : step g visitor w = .running next) :
    work g next + 1 = work g w := by
  cases move_of_step h with
  | finish hadj hend =>
      have hdegree := Graph.outdegree_eq hadj
      have hlast := Array.getElem?_eq_none_iff.1 hend
      simp only [work, framesWork, frameWork, Search.finish]
      omega
  | skip hadj hnext _ =>
      have hdegree := Graph.outdegree_eq hadj
      obtain ⟨hlt, -⟩ := Array.getElem?_eq_some_iff.1 hnext
      simp only [work, framesWork, frameWork]
      omega
  | @descend v i target outer search neighbors hadj hnext hflag =>
      -- The frames of the entered vertex were counted as work of an unexplored one before.
      have hdegree := Graph.outdegree_eq hadj
      obtain ⟨hlt, -⟩ := Array.getElem?_eq_some_iff.1 hnext
      have hentered := unexploredWork_set g search.explored.toList 0 target (by simpa using hflag)
      rw [Nat.zero_add] at hentered
      simp only [work, framesWork, frameWork, Search.discover, Array.toList_setIfInBounds]
      omega

/-! ## Runs -/

/-- Takes frames until none is left or the traversal is interrupted. -/
def run (g : Graph) (visitor : Visitor σ) (w : Worklist σ) : Outcome σ :=
  match h : step g visitor w with
  | .halted outcome => outcome
  | .running next =>
    have : work g next < work g w := by have := work_step h; omega
    run g visitor next
termination_by work g w

/-- Enters `start`, explored or not. -/
def enter (visitor : Visitor σ) (start : Nat) (search : Search σ) :
    Except (Interrupted σ) (Worklist σ) :=
  match search.explored[start]? with
  | none => .error ⟨.indexOutOfBounds search.explored.size start, search⟩
  | some _ => .ok ⟨[⟨start, 0⟩], search.discover visitor start⟩

/-- The traversal from `start`. -/
def traverse (g : Graph) (visitor : Visitor σ) (start : Nat) (search : Search σ) : Outcome σ :=
  match enter visitor start search with
  | .error interrupted => .error interrupted
  | .ok w => run g visitor w

end Worklist

end StrongComponents
