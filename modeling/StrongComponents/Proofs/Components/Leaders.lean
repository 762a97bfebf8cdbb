import StrongComponents.Proofs.Traversal.Outcome

/-!
# The trees of the backward pass are the strongly connected components

The backward pass explores the graph with its edges turned round, from the vertices in the reverse
of the order in which the forward pass finished them. When it comes to an unexplored root, what is
explored is a union of classes of mutually reachable vertices and holds all vertices finished after
the root (`BackwardState`). A vertex reached from the root along unexplored vertices therefore has a
walk to the root on which the root is finished last, and can be reached from it
(`Explores.reaches_of_last`). So the tree of the root is its class (`BackwardState.mem_tree_iff`),
and the root was finished last in it (`leads_last`).

`Forest.Leads` names the root of the tree that holds a vertex; the leaders that the pass notes are
these roots (`Forest.leader_of_leads`).
-/

set_option autoImplicit false

namespace StrongComponents

/-! ## Roots of trees -/

namespace Forest

/-- Among the outermost trees, the one with root `r` holds `x`. -/
def Leads : Forest → Nat → Nat → Prop
  | empty, _, _ => False
  | tree root children siblings, r, x =>
      (r = root ∧ x ∈ (tree root children empty).vertices) ∨ siblings.Leads r x

theorem exists_leads (f : Forest) : ∀ x ∈ f.vertices, ∃ r ∈ f.vertices, f.Leads r x := by
  induction f with
  | empty => simp
  | tree root children siblings _ ihs =>
      intro x hx
      rcases mem_vertices_tree.1 hx with hx | hx | hx
      · exact ⟨root, by simp, .inl ⟨rfl, by simp [hx]⟩⟩
      · exact ⟨root, by simp, .inl ⟨rfl, by simp [hx]⟩⟩
      · obtain ⟨r, hr, hleads⟩ := ihs x hx
        exact ⟨r, by simp [hr], .inr hleads⟩

theorem size_replay_leader (r : Nat) (visits : List Visit) :
    ∀ leaders, ((leaderVisitor r).replay visits leaders).size = leaders.size := by
  induction visits with
  | nil => intro leaders; rfl
  | cons visit visits ih =>
      intro leaders
      rw [Visitor.replay_cons, ih]
      cases visit with
      | discover v => exact Array.size_setIfInBounds
      | finish v => rfl

/-- The vertices discovered under a root get that root as their leader, the others keep theirs. -/
theorem replay_leader_getElem? (r : Nat) (visits : List Visit) {x : Nat} :
    ∀ leaders, ((leaderVisitor r).replay visits leaders)[x]? =
      if .discover x ∈ visits then leaders[x]?.map fun _ => r else leaders[x]? := by
  induction visits with
  | nil => intro leaders; simp
  | cons visit visits ih =>
      intro leaders
      rw [Visitor.replay_cons, ih]
      cases visit with
      | finish v => simp [Visitor.report, leaderVisitor]
      | discover v =>
          by_cases hvx : v = x
          · subst hvx
            by_cases hv : v < leaders.size
            · simp [Visitor.report, leaderVisitor, hv]
            · simp [Visitor.report, leaderVisitor, hv]
          · simp [Visitor.report, leaderVisitor, hvx, Ne.symm hvx]

theorem size_replayRooted_leader (f : Forest) :
    ∀ leaders, (f.replayRooted leaderVisitor leaders).size = leaders.size := by
  induction f with
  | empty => intro leaders; rfl
  | tree root children siblings _ ihs =>
      intro leaders
      rw [replayRooted, ihs, size_replay_leader]

/-- What is not in the forest keeps its leader. -/
theorem replayRooted_leader_of_notMem (f : Forest) {x : Nat} (hx : x ∉ f.vertices) :
    ∀ leaders, (f.replayRooted leaderVisitor leaders)[x]? = leaders[x]? := by
  induction f with
  | empty => intro leaders; rfl
  | tree root children siblings _ ihs =>
      intro leaders
      rw [mem_vertices_tree, not_or, not_or] at hx
      rw [replayRooted, ihs hx.2.2, replay_leader_getElem?, if_neg]
      simp [discover_mem_visits, hx.1, hx.2.1]

/-- The noted leader of a vertex is the root of its tree. -/
theorem leader_of_leads (f : Forest) (hnodup : f.vertices.Nodup) {r x : Nat} :
    ∀ leaders : Array Nat, f.Leads r x → x < leaders.size →
      (f.replayRooted leaderVisitor leaders)[x]? = some r := by
  induction f with
  | empty => intro leaders hleads; exact hleads.elim
  | tree root children siblings _ ihs =>
      intro leaders hleads hx
      have hrest := (List.nodup_cons.1 hnodup).2
      rw [replayRooted]
      rcases hleads with ⟨rfl, htree⟩ | hleads
      · -- A vertex of the first tree is in no later one.
        have hlater : x ∉ siblings.vertices := by
          rcases mem_vertices_tree.1 htree with rfl | hchild | hnone
          · exact fun hmem => (List.nodup_cons.1 hnodup).1 (List.mem_append_right _ hmem)
          · exact fun hmem => (List.nodup_append'.1 hrest).2.2 hchild hmem
          · cases hnone
        rw [replayRooted_leader_of_notMem siblings hlater, replay_leader_getElem?,
          if_pos (discover_mem_visits.2 htree), Array.getElem?_eq_getElem hx, Option.map_some]
      · exact ihs (List.nodup_append'.1 hrest).2.1 _ hleads (by rw [size_replay_leader]; exact hx)

end Forest

/-! ## The backward pass -/

namespace Graph

/-- A walk to a vertex of the graph starts at a vertex of the graph. -/
theorem Reaches.source_lt {g : Graph} {u v : Nat} (h : g.Reaches u v) :
    v < g.vertexCount → u < g.vertexCount := by
  induction h with
  | refl => exact id
  | tail _ he ih => exact fun _ => ih he.source_lt

/-- Where the backward pass stands when the roots `done` are dealt with and `roots` are still to
come. -/
structure BackwardState (g : Graph) (forward : Forest) (done roots : List Nat)
    (flags : Array Bool) :
    Prop where
  /-- The roots are the vertices of the forward pass, the one finished last in front. -/
  order : forward.postorder.reverse = done ++ roots
  size_eq : flags.size = g.vertexCount
  explored : ∀ x ∈ done, flags[x]? = some true
  pending : ∀ x, flags[x]? = some false → x ∈ forward.postorder
  /-- What is explored is a union of classes. -/
  closed : ∀ x y, g.MutuallyReachable x y → flags[x]? = some true → flags[y]? = some true

namespace BackwardState

variable {g r : Graph} {forward : Forest} {before after flags between : Array Bool}
  {targets done rest : List Nat} {root : Nat} {tree : Forest}

theorem skip (h : g.BackwardState forward done (root :: rest) flags)
    (hroot : flags[root]? = some true) :
    g.BackwardState forward (done ++ [root]) rest flags where
  order := by simpa using h.order
  size_eq := h.size_eq
  explored := by
    intro x hx
    rcases List.mem_append.1 hx with hx | hx
    · exact h.explored x hx
    · obtain rfl := List.mem_singleton.1 hx
      exact hroot
  pending := h.pending
  closed := h.closed

/-- The root was finished after the roots still to come and before those dealt with. -/
theorem postorder_eq (h : g.BackwardState forward done (root :: rest) flags) :
    forward.postorder = rest.reverse ++ root :: done.reverse := by
  rw [← List.reverse_reverse forward.postorder, h.order]
  simp

/-- What is unexplored was finished before the root, or is the root. -/
theorem mem_of_unexplored (h : g.BackwardState forward done (root :: rest) flags) {y : Nat}
    (hy : flags[y]? = some false) : y ∈ rest.reverse ∨ y = root := by
  have hmem := h.pending y hy
  rw [h.postorder_eq, List.mem_append, List.mem_cons] at hmem
  rcases hmem with hmem | hmem | hmem
  · exact .inl hmem
  · exact .inr hmem
  · -- What was finished after the root is explored already.
    have hexplored := h.explored y (List.mem_reverse.1 hmem)
    exact absurd hexplored (not_explored_of_unexplored hy)

/-- What reaches the root along unexplored vertices is reached from it. -/
theorem reaches_of_unexplored (hforward : g.Explores before targets forward after)
    (h : g.BackwardState forward done (root :: rest) flags) {x : Nat}
    (hwalk : g.ReachesWithin (fun y => flags[y]? = some false) x root) : g.Reaches root x :=
  hforward.reaches_of_last h.postorder_eq (hwalk.mono fun _ hy => h.mem_of_unexplored hy)

/-- A walk within the class of the root is unexplored throughout. -/
theorem unexplored_of_class (h : g.BackwardState forward done (root :: rest) flags)
    (hroot : flags[root]? = some false) {y : Nat} (hy : g.MutuallyReachable root y) :
    flags[y]? = some false := by
  obtain ⟨hlt, -⟩ := Array.getElem?_eq_some_iff.1 hroot
  have hylt : y < flags.size := by
    rw [h.size_eq] at hlt ⊢
    exact hy.2.source_lt hlt
  rw [← getElem?_ne_true_iff hylt]
  intro hexplored
  exact not_explored_of_unexplored hroot (h.closed y root hy.symm hexplored)

/-- The tree of a root is the class of the root. -/
theorem mem_tree_iff (hr : ∀ x y, r.Edge x y ↔ g.Edge y x)
    (hforward : g.Explores before targets forward after)
    (h : g.BackwardState forward done (root :: rest) flags) (hroot : flags[root]? = some false)
    (htree : r.Explores flags [root] tree between) {x : Nat} :
    x ∈ tree.vertices ↔ g.MutuallyReachable root x := by
  rw [htree.mem_vertices_iff]
  simp only [List.mem_singleton, exists_eq_left]
  constructor
  · intro hwalk
    -- Turned round, the walk leads to the root, which is finished last among the unexplored
    -- vertices.
    have hback := hwalk.reverse fun x y => (hr x y).1
    exact ⟨h.reaches_of_unexplored hforward hback, hback.reaches⟩
  · intro hclass
    -- The walk that closes the cycle through the root stays in the class, which is unexplored as a
    -- whole.
    have hwalk := hclass.2.within_class hclass.1
    have hunexplored : g.ReachesWithin (fun y => flags[y]? = some false) x root :=
      hwalk.mono fun y hy => h.unexplored_of_class hroot (hclass.trans hy)
    exact hunexplored.reverse fun x y => (hr y x).2

/-- After the tree of a root, the pass stands before the roots that are left. -/
theorem enter (hr : ∀ x y, r.Edge x y ↔ g.Edge y x)
    (hforward : g.Explores before targets forward after)
    (h : g.BackwardState forward done (root :: rest) flags) (hroot : flags[root]? = some false)
    (htree : r.Explores flags [root] tree between) :
    g.BackwardState forward (done ++ [root]) rest between where
  order := by simpa using h.order
  size_eq := htree.size_eq.trans h.size_eq
  explored := by
    intro x hx
    rcases List.mem_append.1 hx with hx | hx
    · exact htree.explored_mono (h.explored x hx)
    · exact htree.targets_explored x hx
  pending := fun x hx => h.pending x ((htree.unexplored_iff x).1 hx).1
  closed := by
    intro x y hxy hx
    rw [htree.explored_iff] at hx ⊢
    rcases hx with hx | hx
    · exact .inl (h.closed x y hxy hx)
    · rw [mem_tree_iff hr hforward h hroot htree] at hx ⊢
      exact .inr (hx.trans hxy)

end BackwardState

/-- Each outermost tree of the backward pass grows from its root where the root is unexplored. -/
theorem exists_state_of_leads {g r : Graph} {forward backward : Forest}
    {before after flags final : Array Bool} {targets roots : List Nat}
    (hr : ∀ x y, r.Edge x y ↔ g.Edge y x) (hforward : g.Explores before targets forward after)
    (hbackward : r.Explores flags roots backward final) :
    ∀ {done : List Nat}, g.BackwardState forward done roots flags → ∀ l x, backward.Leads l x →
      ∃ (done' rest : List Nat) (flags' between : Array Bool) (tree : Forest),
        g.BackwardState forward done' (l :: rest) flags' ∧ flags'[l]? = some false ∧
        r.Explores flags' [l] tree between ∧ x ∈ tree.vertices ∧
        ∀ y ∈ tree.vertices, backward.Leads l y := by
  induction hbackward with
  | nil =>
      intro done _ l x hleads
      exact hleads.elim
  | skip hflag _ ih =>
      intro done hstate
      exact ih (hstate.skip hflag)
  | @enter flags between final root rest neighbors children siblings hflag hadj hc _ _ ihs =>
      intro done hstate l x hleads
      have htree := Explores.enter hflag hadj hc (.nil between)
      rcases hleads with ⟨rfl, hx⟩ | hleads
      · exact ⟨done, rest, flags, between, _, hstate, hflag, htree, hx, fun y hy => .inl ⟨rfl, hy⟩⟩
      · obtain ⟨done', rest', flags', between', tree, hstate', hflag', htree', hx, hall⟩ :=
          ihs (hstate.enter hr hforward hflag htree) l x hleads
        exact ⟨done', rest', flags', between', tree, hstate', hflag', htree', hx,
          fun y hy => .inr (hall y hy)⟩

section Classes

variable {g r : Graph} {forward backward : Forest} {before after flags final : Array Bool}
  {targets roots done : List Nat}

/-- The outermost trees of the backward pass are classes: a root and what it leads are mutually
reachable, and a root leads the whole class of each vertex that it leads. -/
theorem leads_classes (hr : ∀ x y, r.Edge x y ↔ g.Edge y x)
    (hforward : g.Explores before targets forward after)
    (hbackward : r.Explores flags roots backward final)
    (hstate : g.BackwardState forward done roots flags) :
    (∀ l x, backward.Leads l x → g.MutuallyReachable l x) ∧
      ∀ l x y, backward.Leads l x → g.MutuallyReachable x y → backward.Leads l y := by
  refine ⟨?_, ?_⟩
  · intro l x hleads
    obtain ⟨done', rest, flags', between, tree, hstate', hroot, htree, hx, -⟩ :=
      exists_state_of_leads hr hforward hbackward hstate l x hleads
    exact (hstate'.mem_tree_iff hr hforward hroot htree).1 hx
  · intro l x y hleads hxy
    obtain ⟨done', rest, flags', between, tree, hstate', hroot, htree, hx, hall⟩ :=
      exists_state_of_leads hr hforward hbackward hstate l x hleads
    have hclass := (hstate'.mem_tree_iff hr hforward hroot htree).1 hx
    exact hall y ((hstate'.mem_tree_iff hr hforward hroot htree).2 (hclass.trans hxy))

/-- The forward pass finishes the root of an outermost tree of the backward pass last in its
class. -/
theorem leads_last (hr : ∀ x y, r.Edge x y ↔ g.Edge y x)
    (hforward : g.Explores before targets forward after)
    (hbackward : r.Explores flags roots backward final)
    (hstate : g.BackwardState forward done roots flags) {l x : Nat} (hleads : backward.Leads l x) :
    ∃ front back, forward.postorder = front ++ l :: back ∧
      ∀ y, g.MutuallyReachable l y → y ∈ front ∨ y = l := by
  obtain ⟨done', rest, flags', between, tree, hstate', hroot, -⟩ :=
    exists_state_of_leads hr hforward hbackward hstate l x hleads
  refine ⟨rest.reverse, done'.reverse, hstate'.postorder_eq, ?_⟩
  intro y hy
  exact hstate'.mem_of_unexplored (hstate'.unexplored_of_class hroot hy)

end Classes

end Graph

end StrongComponents
