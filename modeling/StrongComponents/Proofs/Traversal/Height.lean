import StrongComponents.Proofs.Traversal.Outcome

/-!
# How deep nested calls have to go

A graph, its flags and a list of vertices determine the forest that grows from them
(`Explores.unique`). Nested calls that may go as deep as that forest is high end as the worklist
does, and nested calls that may not are refused a vertex (`sweep_withinRoom`). So for a whole
sweep there is one depth at which nested calls begin to succeed, and where they succeed they
find what the worklist finds.
-/

set_option autoImplicit false

namespace StrongComponents

variable {σ : Type}

namespace Forest

/-- Number of vertices on the longest way down from an outermost root. -/
def height : Forest → Nat
  | empty => 0
  | tree _ children siblings => max (children.height + 1) siblings.height

theorem height_le_length (f : Forest) : f.height ≤ f.vertices.length := by
  induction f with
  | empty => exact Nat.le_refl 0
  | tree root children siblings ihc ihs =>
      simp only [height, vertices, List.length_cons, List.length_append]
      omega

/-- The reports on the first tree come before those on its siblings. -/
theorem replay_visits_tree (visitor : Visitor σ) (root : Nat) (children siblings : Forest)
    (record : σ) :
    visitor.replay (tree root children siblings).visits record =
      visitor.replay siblings.visits (visitor.replay (tree root children empty).visits record) := by
  simp only [visits, Visitor.replay_cons, Visitor.replay_append, Visitor.replay_nil]

end Forest

/-- The same vertices explored from the same flags grow one forest. -/
theorem Graph.Explores.unique {g : Graph} {before after : Array Bool} {targets : List Nat}
    {forest : Forest} (h : g.Explores before targets forest after) :
    ∀ {forest' : Forest} {after' : Array Bool}, g.Explores before targets forest' after' →
      forest' = forest ∧ after' = after := by
  -- The flag of the next vertex leaves only one rule to both sides.
  induction h with
  | nil =>
      intro forest' after' h'
      cases h'
      exact ⟨rfl, rfl⟩
  | skip hflag _ ih =>
      intro forest' after' h'
      cases h' with
      | skip _ hrest => exact ih hrest
      | enter hflag' => exact absurd hflag (not_explored_of_unexplored hflag')
  | enter hflag hadj _ _ ihc ihs =>
      intro forest' after' h'
      cases h' with
      | skip hflag' => exact absurd hflag' (not_explored_of_unexplored hflag)
      | enter _ hadj' hc' hs' =>
          rw [hadj] at hadj'
          cases hadj'
          obtain ⟨rfl, rfl⟩ := ihc hc'
          obtain ⟨rfl, rfl⟩ := ihs hs'
          exact ⟨rfl, rfl⟩

/-! ## Room and height -/

/-- The result of what needs `height` levels where `room` of them are left: the given value if the
room is enough, and a refusal if it is not. -/
structure WithinRoom {ε α : Type} (refusal : ε → Prop) (height room : Nat) (value : α)
    (result : Except ε α) : Prop where
  ok : height ≤ room → result = .ok value
  refused : room < height → ∃ e, refusal e ∧ result = .error e

namespace WithinRoom

variable {ε ε' α β : Type} {refusal : ε → Prop} {refusal' : ε' → Prop} {a b height room : Nat}
  {value : α} {result : Except ε α}

/-- Of two parts after each other the higher one decides. -/
theorem bind {value' : β} {second : α → Except ε β}
    (hfirst : WithinRoom refusal a room value result)
    (hsecond : WithinRoom refusal b room value' (second value)) :
    WithinRoom refusal (max a b) room value' (result.bind second) where
  ok := by
    intro hle
    rw [hfirst.ok (by omega)]
    exact hsecond.ok (by omega)
  refused := by
    intro hlt
    rcases Nat.lt_or_ge room a with ha | ha
    · obtain ⟨e, he, herror⟩ := hfirst.refused ha
      rw [herror]
      exact ⟨e, he, rfl⟩
    · rw [hfirst.ok ha]
      exact hsecond.refused (by omega)

theorem map (f : α → β) (h : WithinRoom refusal height room value result) :
    WithinRoom refusal height room (f value) (result.map f) where
  ok := by
    intro hle
    rw [h.ok hle]
    rfl
  refused := by
    intro hlt
    obtain ⟨e, he, herror⟩ := h.refused hlt
    rw [herror]
    exact ⟨e, he, rfl⟩

theorem mapError {f : ε → ε'} (hf : ∀ e, refusal e → refusal' (f e))
    (h : WithinRoom refusal height room value result) :
    WithinRoom refusal' height room value (result.mapError f) where
  ok := by
    intro hle
    rw [h.ok hle]
    rfl
  refused := by
    intro hlt
    obtain ⟨e, he, herror⟩ := h.refused hlt
    rw [herror]
    exact ⟨f e, hf e he, rfl⟩

end WithinRoom

/-- The depth limit does not let a vertex among the first `n` be entered. -/
def DepthRefusal (limit n : Nat) (cause : GraphError) :
    Prop := ∃ v < n, cause = .depthExceeded limit v

namespace Nested

variable {g : Graph} {visitor : Visitor σ} {limit room : Nat}

/-- Enters `v` if there is a level left for it. -/
def attempt (g : Graph) (visitor : Visitor σ) (limit room v : Nat) (search : Search σ) :
    Outcome σ :=
  match room with
  | 0 => .error ⟨.depthExceeded limit v, search⟩
  | inner + 1 => visit g visitor limit inner v search

theorem traverse_eq_attempt (g : Graph) (visitor : Visitor σ) (limit start : Nat)
    (search : Search σ) :
    traverse g visitor limit start search = attempt g visitor limit limit start search := by
  cases limit <;> rfl

theorem visit_eq {v : Nat} {flag : Bool} {neighbors : Array Nat} {search : Search σ}
    (hflag : search.explored[v]? = some flag) (hadj : g.adjacency[v]? = some neighbors) :
    visit g visitor limit room v search =
      (scan g visitor limit room neighbors.toList (search.discover visitor v)).map
        (·.finish visitor v) := by
  rw [visit]
  simp only [hflag, hadj]
  cases scan g visitor limit room neighbors.toList (search.discover visitor v) <;> rfl

theorem scan_of_explored {target : Nat} {rest : List Nat} {search : Search σ}
    (hflag : search.explored[target]? = some true) :
    scan g visitor limit room (target :: rest) search = scan g visitor limit room rest search := by
  rw [scan.eq_def]
  simp only [hflag]

theorem scan_of_unexplored {target : Nat} {rest : List Nat} {search : Search σ}
    (hflag : search.explored[target]? = some false) :
    scan g visitor limit room (target :: rest) search =
      (attempt g visitor limit room target search).bind (scan g visitor limit room rest) := by
  rw [scan.eq_def]
  simp only [hflag]
  cases room with
  | zero => rfl
  | succ inner =>
      simp only [attempt]
      cases visit g visitor limit inner target search <;> rfl

end Nested

/-- A sweep traverses from an unexplored vertex and goes on from what that yields. -/
theorem Graph.sweep_of_unexplored {g : Graph} {strategy : Strategy} {visitor : Nat → Visitor σ}
    {root : Nat} {rest : List Nat} {search : Search σ}
    (hflag : search.explored[root]? = some false) :
    g.sweep strategy visitor (root :: rest) search =
      (g.traverseInPlace strategy (visitor root) root search).bind
        (g.sweep strategy visitor rest) := by
  rw [sweep]
  simp only [hflag]
  cases g.traverseInPlace strategy (visitor root) root search <;> rfl

namespace Graph.Explores

variable {g : Graph} {before after : Array Bool} {targets : List Nat} {forest : Forest}

/-- A vertex needs one level more than what is entered inside it. -/
theorem attempt_withinRoom {visitor : Visitor σ} {limit v : Nat} {neighbors : Array Nat}
    {children : Forest} (hflag : before[v]? = some false) (hadj : g.adjacency[v]? = some neighbors)
    (hscan : ∀ (inner : Nat) (record : σ),
      WithinRoom (fun i => DepthRefusal limit before.size i.cause) children.height inner
        ⟨after, visitor.replay children.visits record⟩
        (Nested.scan g visitor limit inner neighbors.toList ⟨before.setIfInBounds v true, record⟩))
    (room : Nat) (record : σ) :
    WithinRoom (fun i => DepthRefusal limit before.size i.cause) (children.height + 1) room
      ⟨after, visitor.replay (Forest.tree v children .empty).visits record⟩
      (Nested.attempt g visitor limit room v ⟨before, record⟩) := by
  obtain ⟨hv, -⟩ := Array.getElem?_eq_some_iff.1 hflag
  cases room with
  | zero => exact ⟨fun hle => absurd hle (Nat.not_succ_le_zero _), fun _ => ⟨_, ⟨v, hv, rfl⟩, rfl⟩⟩
  | succ inner =>
      have hinside := (hscan inner (visitor.discover v record)).map (·.finish visitor v)
      rw [Nested.attempt, Nested.visit_eq hflag hadj, Forest.visits, Visitor.replay_cons,
        Visitor.replay_append]
      exact ⟨fun hle => hinside.ok (Nat.le_of_succ_le_succ hle),
        fun hlt => hinside.refused (Nat.lt_of_succ_lt_succ hlt)⟩

/-- A scan needs as many levels as its forest is high. -/
theorem scan_withinRoom (h : g.Explores before targets forest after) (visitor : Visitor σ)
    (limit : Nat) : ∀ (room : Nat) (record : σ),
      WithinRoom (fun i => DepthRefusal limit before.size i.cause) forest.height room
        ⟨after, visitor.replay forest.visits record⟩
        (Nested.scan g visitor limit room targets ⟨before, record⟩) := by
  induction h with
  | nil =>
      intro room record
      rw [Nested.scan]
      exact ⟨fun _ => rfl, fun hlt => absurd hlt (Nat.not_lt_zero room)⟩
  | skip hflag _ ih =>
      intro room record
      rw [Nested.scan_of_explored hflag]
      exact ih room record
  | @enter flags between after target rest neighbors children siblings hflag hadj hc _ ihc ihs =>
      intro room record
      -- Flags keep their number, so a vertex refused later is still one of the first `flags.size`.
      rw [Array.size_setIfInBounds] at ihc
      have hsize : between.size = flags.size := by
        rw [hc.size_eq, Array.size_setIfInBounds]
      rw [hsize] at ihs
      rw [Nested.scan_of_unexplored hflag, Forest.replay_visits_tree]
      exact (attempt_withinRoom hflag hadj ihc room record).bind (ihs room _)

/-- A sweep by nested calls needs as many levels as its forest is high. -/
theorem sweep_withinRoom (h : g.Explores before targets forest after) (visitor : Nat → Visitor σ)
    (limit : Nat) : ∀ record : σ,
      WithinRoom (fun i => DepthRefusal limit before.size i.cause) forest.height limit
        ⟨after, forest.replayRooted visitor record⟩
        (g.sweep (.recursive limit) visitor targets ⟨before, record⟩) := by
  induction h with
  | nil =>
      intro record
      exact ⟨fun _ => rfl, fun hlt => absurd hlt (Nat.not_lt_zero limit)⟩
  | skip hflag _ ih =>
      intro record
      simp only [sweep, hflag]
      exact ih record
  | @enter flags between after root rest neighbors children siblings hflag hadj hc _ _ ihs =>
      intro record
      have hsize : between.size = flags.size := by
        rw [hc.size_eq, Array.size_setIfInBounds]
      have hinside := hc.scan_withinRoom (visitor root) limit
      rw [Array.size_setIfInBounds] at hinside
      rw [hsize] at ihs
      rw [sweep_of_unexplored hflag, traverseInPlace, Nested.traverse_eq_attempt,
        Forest.replayRooted]
      exact (attempt_withinRoom hflag hadj hinside limit record).bind (ihs _)

/-- Where a sweep ends, by either strategy, it has the flags and the record of its forest. -/
theorem eq_of_sweep {strategy : Strategy} {visitor : Nat → Visitor σ} {search final : Search σ}
    (h : g.Explores search.explored targets forest after)
    (hsweep : g.sweep strategy visitor targets search = .ok final) :
    final = ⟨after, forest.replayRooted visitor search.record⟩ := by
  obtain ⟨forest', hexplores, hrecord⟩ := explores_of_sweep hsweep
  obtain ⟨rfl, rfl⟩ := h.unique hexplores
  rw [← hrecord]

end Graph.Explores

end StrongComponents
