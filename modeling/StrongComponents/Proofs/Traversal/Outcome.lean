import StrongComponents.Components.Passes
import StrongComponents.Proofs.Traversal.DepthCut
import StrongComponents.Proofs.Traversal.Forest

/-!
# How traversals and sweeps end

A traversal that ends has grown a depth-first forest and reported it, whichever strategy carried
it out (`enters_of_traverseInPlace`), and so has a sweep over a list of roots
(`explores_of_sweep`). For nested calls this is an induction along the calls; the worklist gets it
from nested calls of sufficient depth.

A worklist traversal that starts at a vertex and is interrupted has met a neighbour that names
no vertex (`sweep_endsOrStrays`). On well-formed graphs there is none, so every such traversal
ends (`EndsOrStrays.exists_ok`).
-/

set_option autoImplicit false

namespace StrongComponents

variable {σ : Type}

namespace Forest

/-- The record after growing the trees one by one, where the visitor may depend on the root of the
tree. -/
def replayRooted (visitor : Nat → Visitor σ) : Forest → σ → σ
  | empty, record => record
  | tree root children siblings, record =>
      siblings.replayRooted visitor ((visitor root).replay (tree root children empty).visits record)

/-- With one visitor for all roots, the reports of the trees follow each other. -/
theorem replayRooted_const (visitor : Visitor σ) (f : Forest) :
    ∀ record : σ, f.replayRooted (fun _ => visitor) record = visitor.replay f.visits record := by
  induction f with
  | empty => intro record; rfl
  | tree root children siblings _ ihs =>
      intro record
      simp only [replayRooted, visits, ihs, Visitor.replay_cons, Visitor.replay_append,
        Visitor.replay_nil]

end Forest

namespace Graph

/-! ## Successful traversals -/

/-- Entering `v`, explored or not, and finishing it after all that it leads to takes the search from
the first to the second state. -/
def Enters (g : Graph) (visitor : Visitor σ) (v : Nat) (search final : Search σ) : Prop :=
  ∃ neighbors children, g.adjacency[v]? = some neighbors ∧
    g.Explores (search.explored.setIfInBounds v true) neighbors.toList children final.explored ∧
    final.record = visitor.replay (Forest.tree v children .empty).visits search.record

/-- A scan that ends has grown a forest from the neighbours it was given. -/
def ScanExplores (g : Graph) (visitor : Visitor σ) (limit room : Nat) : Prop :=
  ∀ (targets : List Nat) (search final : Search σ),
    Nested.scan g visitor limit room targets search = .ok final →
    ∃ forest, g.Explores search.explored targets forest final.explored ∧
      final.record = visitor.replay forest.visits search.record

variable {g : Graph} {visitor : Visitor σ} {limit room : Nat}

theorem enters_of_visit (hscan : ScanExplores g visitor limit room) {v : Nat}
    {search final : Search σ} (h : Nested.visit g visitor limit room v search = .ok final) :
    g.Enters visitor v search final := by
  rw [Nested.visit] at h
  cases hflag : search.explored[v]? with
  | none => simp [hflag] at h
  | some flag =>
      simp only [hflag] at h
      cases hadj : g.adjacency[v]? with
      | none => simp [hadj] at h
      | some neighbors =>
          simp only [hadj] at h
          cases hresult : Nested.scan g visitor limit room neighbors.toList
              (search.discover visitor v) with
          | error interrupted => simp [hresult] at h
          | ok inside =>
              simp only [hresult, Except.ok.injEq] at h
              subst h
              obtain ⟨children, hexplores, hrecord⟩ := hscan _ _ _ hresult
              refine ⟨neighbors, children, hadj, hexplores, ?_⟩
              rw [Forest.visits, Visitor.replay_cons, Visitor.replay_append]
              show visitor.finish v inside.record = _
              rw [hrecord]
              rfl

theorem scanExplores_of_inner
    (hinner : ∀ inner, room = inner + 1 → ScanExplores g visitor limit inner) :
    ScanExplores g visitor limit room := by
  intro targets
  induction targets with
  | nil =>
      intro search final h
      rw [Nested.scan] at h
      cases h
      exact ⟨.empty, .nil _, rfl⟩
  | cons target rest ih =>
      intro search final h
      rw [Nested.scan.eq_def] at h
      simp only at h
      cases hflag : search.explored[target]? with
      | none => simp [hflag] at h
      | some flag =>
          cases flag with
          | true =>
              simp only [hflag] at h
              obtain ⟨forest, hexplores, hrecord⟩ := ih search final h
              exact ⟨forest, .skip hflag hexplores, hrecord⟩
          | false =>
              cases room with
              | zero => simp [hflag] at h
              | succ inner =>
                  simp only [hflag] at h
                  cases hresult : Nested.visit g visitor limit inner target search with
                  | error interrupted => simp [hresult] at h
                  | ok inside =>
                      simp only [hresult] at h
                      obtain ⟨neighbors, children, hadj, hchildren, hinside⟩ :=
                        enters_of_visit (hinner inner rfl) hresult
                      obtain ⟨siblings, hsiblings, hrecord⟩ := ih inside final h
                      refine ⟨.tree target children siblings,
                        .enter hflag hadj hchildren hsiblings, ?_⟩
                      rw [hrecord, hinside]
                      simp only [Forest.visits, Visitor.replay_cons, Visitor.replay_append,
                        Visitor.replay_nil]

theorem scanExplores (g : Graph) (visitor : Visitor σ) (limit room : Nat) :
    ScanExplores g visitor limit room :=
  Nested.room_induction (fun _ hinner => scanExplores_of_inner hinner) room

/-- The worklist does what nested calls of sufficient depth do. -/
theorem exists_recursive_eq_iterative (g : Graph) (visitor : Visitor σ) (start : Nat)
    (search : Search σ) :
    ∃ limit, 1 ≤ limit ∧ g.traverseInPlace (.recursive limit) visitor start search =
      g.traverseInPlace .iterative visitor start search := by
  -- A run has at most as many frames as it has work ahead at its start.
  let height := Worklist.work g ⟨[⟨start, 0⟩], search.discover visitor start⟩
  refine ⟨height + 1, by omega, traverseInPlace_recursive_eq (by omega) ?_⟩
  intro n state hstate
  cases hstart : search.explored[start]? with
  | none => simp [Worklist.stateAt, Worklist.enter, hstart] at hstate
  | some flag =>
      rw [Worklist.stateAt_eq_after hstart] at hstate
      calc state.frames.length
          ≤ Worklist.work g state := Worklist.length_frames_le_work state
        _ ≤ height := Worklist.work_after_le hstate
        _ ≤ height + 1 := Nat.le_succ height

/-- A traversal that ends has entered its start vertex. -/
theorem enters_of_traverseInPlace {strategy : Strategy} {start : Nat} {search final : Search σ}
    (h : g.traverseInPlace strategy visitor start search = .ok final) :
    g.Enters visitor start search final := by
  -- The worklist is brought back to nested calls, which follow the recursion of the forest.
  have nested : ∀ limit, g.traverseInPlace (.recursive limit) visitor start search = .ok final →
      g.Enters visitor start search final := by
    intro limit h
    cases limit with
    | zero => cases h
    | succ room => exact enters_of_visit (scanExplores g visitor (room + 1) room) h
  cases strategy with
  | recursive limit => exact nested limit h
  | iterative =>
      obtain ⟨limit, -, heq⟩ := exists_recursive_eq_iterative g visitor start search
      exact nested limit (heq.trans h)

/-- A sweep that ends has grown a forest from its roots. -/
theorem explores_of_sweep {strategy : Strategy} {visitor : Nat → Visitor σ} :
    ∀ {roots : List Nat} {search final : Search σ},
      g.sweep strategy visitor roots search = .ok final →
      ∃ forest, g.Explores search.explored roots forest final.explored ∧
        final.record = forest.replayRooted visitor search.record := by
  intro roots
  induction roots with
  | nil =>
      intro search final h
      cases h
      exact ⟨.empty, .nil _, rfl⟩
  | cons root rest ih =>
      intro search final h
      rw [sweep] at h
      cases hflag : search.explored[root]? with
      | none => simp [hflag] at h
      | some flag =>
          cases flag with
          | true =>
              simp only [hflag] at h
              obtain ⟨forest, hexplores, hrecord⟩ := ih h
              exact ⟨forest, .skip hflag hexplores, hrecord⟩
          | false =>
              simp only [hflag] at h
              cases hresult : g.traverseInPlace strategy (visitor root) root search with
              | error interrupted => simp [hresult] at h
              | ok inside =>
                  simp only [hresult] at h
                  obtain ⟨neighbors, children, hadj, hchildren, hinside⟩ :=
                    enters_of_traverseInPlace hresult
                  obtain ⟨siblings, hsiblings, hrecord⟩ := ih h
                  refine ⟨.tree root children siblings, .enter hflag hadj hchildren hsiblings, ?_⟩
                  rw [hrecord, hinside, Forest.replayRooted]

/-! ## Interrupted traversals -/

/-- A search among the vertices of the graph was interrupted because an explored vertex has a
neighbour that names no vertex, and so has no flag. -/
def Stray (g : Graph) (interrupted : Interrupted σ) : Prop :=
  interrupted.search.explored.size = g.vertexCount ∧
    ∃ u v, interrupted.search.explored[u]? = some true ∧ g.Edge u v ∧ g.vertexCount ≤ v ∧
      interrupted.cause = .indexOutOfBounds g.vertexCount v

/-- A search among the vertices of the graph ended, or was interrupted at a stray neighbour. -/
def EndsOrStrays (g : Graph) : Outcome σ → Prop
  | .ok search => search.explored.size = g.vertexCount
  | .error interrupted => g.Stray interrupted

theorem not_stray (hg : g.WellFormed) (interrupted : Interrupted σ) : ¬ g.Stray interrupted := by
  rintro ⟨-, u, v, -, he, hv, -⟩
  exact absurd (he.target_lt hg) (Nat.not_lt.2 hv)

/-- On a well-formed graph there is no stray neighbour, so the search has ended. -/
theorem EndsOrStrays.exists_ok (hg : g.WellFormed) {outcome : Outcome σ}
    (h : g.EndsOrStrays outcome) :
    ∃ final, outcome = .ok final ∧ final.explored.size = g.vertexCount := by
  cases outcome with
  | ok final => exact ⟨final, rfl, h⟩
  | error interrupted => exact absurd h (not_stray hg interrupted)

end Graph

namespace Worklist

variable {g : Graph} {visitor : Visitor σ}

/-- There is a flag for each vertex, and every frame belongs to an explored vertex. -/
structure InBounds (g : Graph) (w : Worklist σ) : Prop where
  size_eq : w.search.explored.size = g.vertexCount
  explored : ∀ frame ∈ w.frames, w.search.explored[frame.vertex]? = some true

theorem inBounds_step {w next : Worklist σ} (hw : InBounds g w)
    (h : step g visitor w = .running next) : InBounds g next := by
  cases move_of_step h with
  | finish _ _ =>
      exact ⟨hw.size_eq, fun frame hframe => hw.explored frame (List.mem_cons_of_mem _ hframe)⟩
  | @skip v i target outer search neighbors _ _ _ =>
      refine ⟨hw.size_eq, ?_⟩
      intro frame hframe
      rcases List.mem_cons.1 hframe with rfl | hframe
      · exact hw.explored ⟨v, i⟩ List.mem_cons_self
      · exact hw.explored frame (List.mem_cons_of_mem _ hframe)
  | @descend v i target outer search neighbors _ _ hflag =>
      have hmark : ∀ x, (search.discover visitor target).explored[x]? = some true ↔
          x = target ∨ search.explored[x]? = some true := fun x => getElem?_mark_eq_true hflag
      refine ⟨by simpa [Search.discover] using hw.size_eq, ?_⟩
      intro frame hframe
      rw [hmark]
      rcases List.mem_cons.1 hframe with rfl | hframe
      · exact .inl rfl
      · rcases List.mem_cons.1 hframe with rfl | hframe
        · exact .inr (hw.explored ⟨v, i⟩ List.mem_cons_self)
        · exact .inr (hw.explored frame (List.mem_cons_of_mem _ hframe))

theorem endsOrStrays_of_halted {w : Worklist σ} {outcome : Outcome σ} (hw : InBounds g w)
    (h : step g visitor w = .halted outcome) : g.EndsOrStrays outcome := by
  cases move_of_step h with
  | done search => exact hw.size_eq
  | @missing v i outer search hadj =>
      -- The vertex of a frame has a flag, hence a neighbour list.
      have hflag := hw.explored ⟨v, i⟩ List.mem_cons_self
      obtain ⟨hlt, -⟩ := Array.getElem?_eq_some_iff.1 hflag
      have hge := Array.getElem?_eq_none_iff.1 hadj
      have hsize : search.explored.size = g.adjacency.size := hw.size_eq
      exact absurd hlt (by simp only; omega)
  | @stray v i target outer search neighbors hadj hnext hflag =>
      have hsize : search.explored.size = g.vertexCount := hw.size_eq
      have hedge : g.Edge v target := ⟨neighbors, hadj, Array.mem_of_getElem? hnext⟩
      refine ⟨hsize, v, target, hw.explored ⟨v, i⟩ List.mem_cons_self, hedge, ?_, ?_⟩
      · rw [← hsize]
        exact Array.getElem?_eq_none_iff.1 hflag
      · rw [← hsize]

/-- A run inside the graph ends or is interrupted at a stray neighbour. -/
theorem run_endsOrStrays (g : Graph) (visitor : Visitor σ) (w : Worklist σ) :
    InBounds g w → g.EndsOrStrays (run g visitor w) := by
  induction w using run_induction g visitor with
  | halted w outcome h =>
      intro hw
      rw [run_of_halted h]
      exact endsOrStrays_of_halted hw h
  | running w next h ih =>
      intro hw
      rw [run_of_step h]
      exact ih (inBounds_step hw h)

theorem traverse_endsOrStrays {start : Nat} {search : Search σ}
    (hsize : search.explored.size = g.vertexCount) (hstart : search.explored[start]? = some false) :
    g.EndsOrStrays (traverse g visitor start search) := by
  rw [traverse_eq_run hstart]
  refine run_endsOrStrays g visitor _ ⟨by simpa [Search.discover] using hsize, ?_⟩
  intro frame hframe
  obtain rfl := List.mem_singleton.1 hframe
  exact (getElem?_mark_eq_true hstart).2 (.inl rfl)

end Worklist

namespace Graph

/-- A sweep by worklist over vertices of the graph ends or is interrupted at a stray neighbour. -/
theorem sweep_endsOrStrays {g : Graph} {visitor : Nat → Visitor σ} :
    ∀ {roots : List Nat} {search : Search σ}, search.explored.size = g.vertexCount →
      (∀ root ∈ roots, root < g.vertexCount) →
      g.EndsOrStrays (g.sweep .iterative visitor roots search) := by
  intro roots
  induction roots with
  | nil => intro search hsize _; exact hsize
  | cons root rest ih =>
      intro search hsize hroots
      have hroot : root < search.explored.size := hsize ▸ hroots root List.mem_cons_self
      have hrest : ∀ r ∈ rest, r < g.vertexCount := fun r hr => hroots r (List.mem_cons_of_mem _ hr)
      rw [sweep]
      cases hflag : search.explored[root]? with
      | none => exact absurd (Array.getElem?_eq_none_iff.1 hflag) (Nat.not_le.2 hroot)
      | some flag =>
          cases flag with
          | true => exact ih hsize hrest
          | false =>
              have htraverse : g.EndsOrStrays (Worklist.traverse g (visitor root) root search) :=
                Worklist.traverse_endsOrStrays hsize hflag
              simp only [traverseInPlace]
              cases hresult : Worklist.traverse g (visitor root) root search with
              | error interrupted =>
                  rw [hresult] at htraverse
                  exact htraverse
              | ok inside =>
                  rw [hresult] at htraverse
                  exact ih htraverse hrest

end Graph

end StrongComponents
