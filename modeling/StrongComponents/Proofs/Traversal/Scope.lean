import StrongComponents.Proofs.Traversal.Height

/-!
# What visitors are told of

A visitor is told of a vertex only after its flag was looked up, and so never of a number
that has none: what a visitor would do there makes no difference to a sweep, whether it
ends or is interrupted (`sweep_congr`). In particular a record with one entry for each flag
is never written past its end.
-/

set_option autoImplicit false

namespace StrongComponents

variable {σ : Type}

/-- Two visitors do the same with the first `n` vertices. -/
structure Visitor.AgreeBelow (n : Nat) (visitor visitor' : Visitor σ) : Prop where
  discover : ∀ v < n, visitor.discover v = visitor'.discover v
  finish : ∀ v < n, visitor.finish v = visitor'.finish v

namespace Search

variable {n v : Nat} {visitor visitor' : Visitor σ}

theorem discover_congr (h : visitor.AgreeBelow n visitor') (hv : v < n) (search : Search σ) :
    search.discover visitor v = search.discover visitor' v := by
  rw [discover, discover, h.discover v hv]

theorem finish_congr (h : visitor.AgreeBelow n visitor') (hv : v < n) (search : Search σ) :
    search.finish visitor v = search.finish visitor' v := by
  rw [finish, finish, h.finish v hv]

theorem size_discover (visitor : Visitor σ) (v : Nat) (search : Search σ) :
    (search.discover visitor v).explored.size = search.explored.size := by
  rw [discover, Array.size_setIfInBounds]

/-- A number with a flag is below the number of flags. -/
theorem lt_of_flag {search : Search σ} {flag : Bool} (hsize : search.explored.size = n)
    (hflag : search.explored[v]? = some flag) : v < n :=
  hsize ▸ (Array.getElem?_eq_some_iff.1 hflag).1

end Search

/-! ## The worklist -/

namespace Worklist

variable {g : Graph} {n : Nat} {visitor visitor' : Visitor σ}

/-- There are `n` flags, and every frame belongs to a number that has one. -/
structure Within (n : Nat) (w : Worklist σ) : Prop where
  size_eq : w.search.explored.size = n
  lt : ∀ frame ∈ w.frames, frame.vertex < n

theorem within_step {w next : Worklist σ} (hw : w.Within n) (h : step g visitor w = .running next) :
    next.Within n := by
  cases move_of_step h with
  | finish => exact ⟨hw.size_eq, fun frame hframe => hw.lt frame (List.mem_cons_of_mem _ hframe)⟩
  | @skip v i =>
      refine ⟨hw.size_eq, ?_⟩
      intro frame hframe
      rcases List.mem_cons.1 hframe with rfl | hframe
      · exact hw.lt ⟨v, i⟩ List.mem_cons_self
      · exact hw.lt frame (List.mem_cons_of_mem _ hframe)
  | @descend v i _ _ _ _ _ _ hflag =>
      refine ⟨(Search.size_discover visitor _ _).trans hw.size_eq, ?_⟩
      intro frame hframe
      rcases List.mem_cons.1 hframe with rfl | hframe
      · exact Search.lt_of_flag hw.size_eq hflag
      · rcases List.mem_cons.1 hframe with rfl | hframe
        · exact hw.lt ⟨v, i⟩ List.mem_cons_self
        · exact hw.lt frame (List.mem_cons_of_mem _ hframe)

/-- A step reports a vertex that it has a frame for, or one whose flag it has looked up. -/
theorem step_congr (h : visitor.AgreeBelow n visitor') {w : Worklist σ} (hw : w.Within n) :
    step g visitor w = step g visitor' w := by
  apply Eq.symm
  -- What one visitor's step finds selects the same move for the other.
  cases hstep : step g visitor w with
  | halted outcome =>
      cases move_of_step hstep with
      | done search => exact (Move.done search).step_eq
      | missing hadj => exact (Move.missing hadj).step_eq
      | stray hadj hnext hflag => exact (Move.stray hadj hnext hflag).step_eq
  | running next =>
      cases move_of_step hstep with
      | finish hadj hnext =>
          rw [Search.finish_congr h (hw.lt _ List.mem_cons_self)]
          exact (Move.finish hadj hnext).step_eq
      | skip hadj hnext hflag => exact (Move.skip hadj hnext hflag).step_eq
      | descend hadj hnext hflag =>
          rw [Search.discover_congr h (Search.lt_of_flag hw.size_eq hflag)]
          exact (Move.descend hadj hnext hflag).step_eq

theorem run_congr (h : visitor.AgreeBelow n visitor') (w : Worklist σ) :
    w.Within n → run g visitor w = run g visitor' w := by
  induction w using run_induction g visitor with
  | halted w outcome hstep =>
      intro hw
      rw [run_of_halted hstep, run_of_halted ((step_congr h hw).symm.trans hstep)]
  | running w next hstep ih =>
      intro hw
      rw [run_of_step hstep, run_of_step ((step_congr h hw).symm.trans hstep),
        ih (within_step hw hstep)]

theorem traverse_congr (h : visitor.AgreeBelow n visitor') {search : Search σ}
    (hsize : search.explored.size = n) (start : Nat) :
    traverse g visitor start search = traverse g visitor' start search := by
  cases hstart : search.explored[start]? with
  | none => simp only [traverse, enter, hstart]
  | some flag =>
      have hlt := Search.lt_of_flag hsize hstart
      simp only [traverse, enter, hstart]
      rw [← Search.discover_congr h hlt]
      apply run_congr h
      refine ⟨(Search.size_discover visitor start search).trans hsize, ?_⟩
      intro frame hframe
      obtain rfl := List.mem_singleton.1 hframe
      exact hlt

end Worklist

/-! ## Nested calls -/

namespace Nested

variable {g : Graph} {n limit room : Nat} {visitor visitor' : Visitor σ}

/-- Scans inside a level do not tell the visitors apart. -/
def ScanAgrees (g : Graph) (n limit room : Nat) (visitor visitor' : Visitor σ) : Prop :=
  ∀ (targets : List Nat) (search : Search σ), search.explored.size = n →
    scan g visitor limit room targets search = scan g visitor' limit room targets search

theorem visit_congr (h : visitor.AgreeBelow n visitor')
    (hscan : ScanAgrees g n limit room visitor visitor') (v : Nat) {search : Search σ}
    (hsize : search.explored.size = n) :
    visit g visitor limit room v search = visit g visitor' limit room v search := by
  rw [visit, visit]
  cases hflag : search.explored[v]? with
  | none => rfl
  | some flag =>
      have hlt := Search.lt_of_flag hsize hflag
      have hinside : (search.discover visitor v).explored.size = n :=
        (Search.size_discover visitor v search).trans hsize
      simp only [← Search.discover_congr h hlt]
      cases g.adjacency[v]? with
      | none => rfl
      | some targets => simp only [hscan targets.toList _ hinside, Search.finish_congr h hlt]

/-- A visit that ends leaves as many flags as there were. -/
theorem size_of_visit {v : Nat} {search final : Search σ}
    (hvisit : visit g visitor limit room v search = .ok final) :
    final.explored.size = search.explored.size := by
  obtain ⟨neighbors, children, -, hexplores, -⟩ :=
    Graph.enters_of_visit (Graph.scanExplores g visitor limit room) hvisit
  rw [hexplores.size_eq, Array.size_setIfInBounds]

theorem scan_of_missing {target : Nat} {rest : List Nat} {search : Search σ}
    (hflag : search.explored[target]? = none) :
    scan g visitor limit room (target :: rest) search =
      .error ⟨.indexOutOfBounds search.explored.size target, search⟩ := by
  rw [scan.eq_def]
  simp only [hflag]

theorem scanAgrees_of_inner (h : visitor.AgreeBelow n visitor')
    (hinner : ∀ inner, room = inner + 1 → ScanAgrees g n limit inner visitor visitor') :
    ScanAgrees g n limit room visitor visitor' := by
  -- The induction is on what is left to scan; a neighbour that is entered belongs to the level
  -- further in.
  intro targets
  induction targets with
  | nil =>
      intro search _
      rw [scan, scan]
  | cons target rest ih =>
      intro search hsize
      cases hflag : search.explored[target]? with
      | none => rw [scan_of_missing hflag, scan_of_missing hflag]
      | some flag =>
          cases flag with
          | true =>
              rw [scan_of_explored hflag, scan_of_explored hflag]
              exact ih search hsize
          | false =>
              rw [scan_of_unexplored hflag, scan_of_unexplored hflag]
              cases room with
              | zero => rfl
              | succ inner =>
                  simp only [attempt, ← visit_congr h (hinner inner rfl) target hsize]
                  cases hvisit : visit g visitor limit inner target search with
                  | error interrupted => rfl
                  | ok inside => exact ih inside ((size_of_visit hvisit).trans hsize)

theorem scanAgrees (h : visitor.AgreeBelow n visitor') (limit room : Nat) :
    ScanAgrees g n limit room visitor visitor' :=
  room_induction (fun _ hinner => scanAgrees_of_inner h hinner) room

theorem traverse_congr (h : visitor.AgreeBelow n visitor') {search : Search σ}
    (hsize : search.explored.size = n) (limit start : Nat) :
    traverse g visitor limit start search = traverse g visitor' limit start search := by
  cases limit with
  | zero => rfl
  | succ room => exact visit_congr h (scanAgrees h (room + 1) room) start hsize

end Nested

/-! ## Sweeps -/

namespace Graph

variable {g : Graph} {n : Nat}

theorem traverseInPlace_congr {visitor visitor' : Visitor σ} (h : visitor.AgreeBelow n visitor')
    {search : Search σ} (hsize : search.explored.size = n) (strategy : Strategy) (start : Nat) :
    g.traverseInPlace strategy visitor start search =
      g.traverseInPlace strategy visitor' start search := by
  cases strategy with
  | iterative => exact Worklist.traverse_congr h hsize start
  | recursive limit => exact Nested.traverse_congr h hsize limit start

theorem size_of_traverseInPlace {visitor : Visitor σ} {strategy : Strategy} {start : Nat}
    {search final : Search σ} (h : g.traverseInPlace strategy visitor start search = .ok final) :
    final.explored.size = search.explored.size := by
  obtain ⟨neighbors, children, -, hexplores, -⟩ := enters_of_traverseInPlace h
  rw [hexplores.size_eq, Array.size_setIfInBounds]

/-- Sweeps do not tell visitors apart that agree on the numbers that have flags. -/
theorem sweep_congr {visitor visitor' : Nat → Visitor σ}
    (h : ∀ root, (visitor root).AgreeBelow n (visitor' root)) (strategy : Strategy)
    (roots : List Nat) :
    ∀ search : Search σ, search.explored.size = n →
      g.sweep strategy visitor roots search = g.sweep strategy visitor' roots search := by
  induction roots with
  | nil => exact fun _ _ => rfl
  | cons root rest ih =>
      intro search hsize
      rw [sweep, sweep]
      cases hflag : search.explored[root]? with
      | none => rfl
      | some flag =>
          cases flag with
          | true => exact ih search hsize
          | false =>
              simp only [← traverseInPlace_congr (h root) hsize]
              cases htraversed : g.traverseInPlace strategy (visitor root) root search with
              | error interrupted => rfl
              | ok inside => exact ih inside ((size_of_traverseInPlace htraversed).trans hsize)

end Graph

end StrongComponents
