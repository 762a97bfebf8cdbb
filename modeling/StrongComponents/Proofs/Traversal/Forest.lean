import StrongComponents.Proofs.Graph.Walk
import StrongComponents.Traversal.Basic
import Mathlib.Data.List.Nodup

/-!
# Depth-first forests

What a depth-first search does is recorded by a forest: each tree is an entered vertex with the
forest of what was entered inside it, and trees stand in the order of their discovery.
`Graph.Explores` says which forest grows when the vertices of a list are explored one after the
other, without reference to a stack or to nested calls. One relation serves a neighbour list, a
single start vertex and the roots of a whole pass alike.

Main statements, for every graph and all flags:

* `Explores.explored_iff`: the flags at the end are the ones at the start and those of the forest's
vertices;
* `Explores.mem_vertices_iff`: the forest holds the vertices reachable from the list along
unexplored vertices;
* `Explores.reaches_of_last`: a walk that ends at the vertex finished last on it can be walked back.
-/

set_option autoImplicit false

namespace StrongComponents

/-- Entered vertices: nothing, or a first tree with its root and what was entered inside
it, and the trees after it. -/
inductive Forest where
  | empty
  | tree (root : Nat) (children siblings : Forest)

namespace Forest

/-- What a search reports while the forest grows. -/
def visits : Forest → List Visit
  | empty => []
  | tree root children siblings =>
      .discover root :: (children.visits ++ .finish root :: siblings.visits)

/-- The vertices in the order of their discovery. -/
def vertices : Forest → List Nat
  | empty => []
  | tree root children siblings => root :: (children.vertices ++ siblings.vertices)

/-- The vertices in the order in which they are finished. -/
def postorder : Forest → List Nat
  | empty => []
  | tree root children siblings => children.postorder ++ root :: siblings.postorder

@[simp] theorem vertices_empty : empty.vertices = [] := rfl

@[simp] theorem mem_vertices_tree {x root : Nat} {children siblings : Forest} :
    x ∈ (tree root children siblings).vertices ↔
      x = root ∨ x ∈ children.vertices ∨ x ∈ siblings.vertices := by
  simp [vertices]

theorem postorder_perm (f : Forest) : f.postorder.Perm f.vertices := by
  induction f with
  | empty => exact .refl _
  | tree root children siblings ihc ihs =>
      have hfront : (children.postorder ++ root :: siblings.postorder).Perm
          (root :: (children.postorder ++ siblings.postorder)) := List.perm_middle
      exact hfront.trans ((ihc.append ihs).cons root)

theorem discover_mem_visits {f : Forest} {v : Nat} : .discover v ∈ f.visits ↔ v ∈ f.vertices := by
  induction f with
  | empty => simp [visits, vertices]
  | tree root children siblings ihc ihs => simp [visits, ihc, ihs]

theorem finish_mem_visits {f : Forest} {v : Nat} : .finish v ∈ f.visits ↔ v ∈ f.vertices := by
  induction f with
  | empty => simp [visits, vertices]
  | tree root children siblings ihc ihs =>
      simp only [visits, List.mem_cons, List.mem_append, reduceCtorEq, false_or, ihc, ihs,
        Visit.finish.injEq, mem_vertices_tree]
      exact or_left_comm

end Forest

/-! ## Flags -/

/-- After marking `v`, explored is what was explored before, and `v`. -/
theorem getElem?_mark_eq_true {flags : Array Bool} {v x : Nat} (hv : flags[v]? = some false) :
    (flags.setIfInBounds v true)[x]? = some true ↔ x = v ∨ flags[x]? = some true := by
  obtain ⟨hlt, -⟩ := Array.getElem?_eq_some_iff.1 hv
  rw [Array.getElem?_setIfInBounds]
  by_cases hx : v = x
  · subst hx
    simp [hlt]
  · simp [hx, Ne.symm hx]

/-- After marking `v`, unexplored is what was unexplored before, without `v`. -/
theorem getElem?_mark_eq_false {flags : Array Bool} {v x : Nat} :
    (flags.setIfInBounds v true)[x]? = some false ↔ x ≠ v ∧ flags[x]? = some false := by
  rw [Array.getElem?_setIfInBounds]
  by_cases hx : v = x
  · subst hx
    simp
  · simp [hx, Ne.symm hx]

theorem not_explored_of_unexplored {flags : Array Bool} {x : Nat} (h : flags[x]? = some false) :
    ¬ flags[x]? = some true := by
  rw [h]
  exact nofun

/-- Within the bounds, a flag that is not set is cleared. -/
theorem getElem?_ne_true_iff {flags : Array Bool} {x : Nat} (hx : x < flags.size) :
    ¬ flags[x]? = some true ↔ flags[x]? = some false := by
  rw [Array.getElem?_eq_getElem hx]
  cases flags[x] <;> simp

/-! ## Growing a forest -/

/-- Exploring the vertices of a list in order, the explored ones skipped, takes the flags from
the first to the last array and grows the forest between. A vertex that lies past the end of the
flags has no place in it. -/
inductive Graph.Explores (g : Graph) : Array Bool → List Nat → Forest → Array Bool → Prop where
  | nil (flags : Array Bool) : Explores g flags [] .empty flags
  | skip {flags after : Array Bool} {target : Nat} {rest : List Nat} {forest : Forest} :
      flags[target]? = some true → Explores g flags rest forest after →
      Explores g flags (target :: rest) forest after
  | enter {flags between after : Array Bool} {target : Nat} {rest : List Nat}
      {neighbors : Array Nat} {children siblings : Forest} :
      flags[target]? = some false → g.adjacency[target]? = some neighbors →
      Explores g (flags.setIfInBounds target true) neighbors.toList children between →
      Explores g between rest siblings after →
      Explores g flags (target :: rest) (.tree target children siblings) after

namespace Graph.Explores

variable {g : Graph} {before after : Array Bool} {targets : List Nat} {forest : Forest}

theorem size_eq (h : g.Explores before targets forest after) : after.size = before.size := by
  induction h with
  | nil => rfl
  | skip _ _ ih => exact ih
  | enter _ _ _ _ ihc ihs => simpa using ihs.trans ihc

/-- Explored at the end is what was explored at the start, and what was entered. -/
theorem explored_iff (h : g.Explores before targets forest after) (x : Nat) :
    after[x]? = some true ↔ before[x]? = some true ∨ x ∈ forest.vertices := by
  induction h with
  | nil => simp
  | skip _ _ ih => exact ih
  | @enter flags between after target rest neighbors children siblings hflag _ _ _ ihc ihs =>
      rw [ihs, ihc, getElem?_mark_eq_true hflag, Forest.mem_vertices_tree]
      simp only [or_assoc]
      exact or_left_comm

/-- Unexplored at the end is what was unexplored at the start and was not entered. -/
theorem unexplored_iff (h : g.Explores before targets forest after) (x : Nat) :
    after[x]? = some false ↔ before[x]? = some false ∧ x ∉ forest.vertices := by
  by_cases hx : x < before.size
  · have hx' : x < after.size := by rw [h.size_eq]; exact hx
    rw [← getElem?_ne_true_iff hx, ← getElem?_ne_true_iff hx', h.explored_iff]
    exact not_or
  · have hx' : ¬ x < after.size := by rw [h.size_eq]; exact hx
    simp [Array.getElem?_eq_none (Nat.le_of_not_lt hx),
      Array.getElem?_eq_none (Nat.le_of_not_lt hx')]

/-- Only unexplored vertices are entered. -/
theorem unexplored_of_mem (h : g.Explores before targets forest after) :
    ∀ x ∈ forest.vertices, before[x]? = some false := by
  induction h with
  | nil => simp
  | skip _ _ ih => exact ih
  | @enter flags between after target rest neighbors children siblings hflag _ hc _ ihc ihs =>
      intro x hx
      rcases Forest.mem_vertices_tree.1 hx with rfl | hx | hx
      · exact hflag
      · exact (getElem?_mark_eq_false.1 (ihc x hx)).2
      · exact (getElem?_mark_eq_false.1 ((hc.unexplored_iff x).1 (ihs x hx)).1).2

/-- What is explored at the end and was not at the start has been entered. -/
theorem mem_of_explored (h : g.Explores before targets forest after) {x : Nat}
    (hbefore : before[x]? = some false) (hafter : after[x]? = some true) : x ∈ forest.vertices :=
  ((h.explored_iff x).1 hafter).resolve_left (not_explored_of_unexplored hbefore)

/-- What is entered later was not entered before. -/
theorem notMem_of_later {between : Array Bool} {rest : List Nat} {later : Forest} {x : Nat}
    (h : g.Explores before targets forest between) (hlater : g.Explores between rest later after)
    (hx : x ∈ later.vertices) : x ∉ forest.vertices :=
  ((h.unexplored_iff x).1 (hlater.unexplored_of_mem x hx)).2

/-- No vertex is entered twice. -/
theorem vertices_nodup (h : g.Explores before targets forest after) : forest.vertices.Nodup := by
  induction h with
  | nil => exact List.nodup_nil
  | skip _ _ ih => exact ih
  | @enter flags between after target rest neighbors children siblings hflag hadj hc hs ihc ihs =>
      have htree := Explores.enter hflag hadj hc (.nil between)
      refine List.nodup_cons.2 ⟨?_, List.nodup_append'.2 ⟨ihc, ihs, ?_⟩⟩
      · intro hmem
        rcases List.mem_append.1 hmem with hmem | hmem
        · exact (getElem?_mark_eq_false.1 (hc.unexplored_of_mem target hmem)).1 rfl
        · exact htree.notMem_of_later hs hmem (by simp)
      · exact fun x hx hx' => hc.notMem_of_later hs hx' hx

theorem postorder_nodup (h : g.Explores before targets forest after) : forest.postorder.Nodup :=
  forest.postorder_perm.nodup_iff.2 h.vertices_nodup

/-- Flags are only ever set. -/
theorem explored_mono (h : g.Explores before targets forest after) {x : Nat}
    (hx : before[x]? = some true) : after[x]? = some true :=
  (h.explored_iff x).2 (.inl hx)

/-- Every listed vertex is explored at the end. -/
theorem targets_explored (h : g.Explores before targets forest after) :
    ∀ t ∈ targets, after[t]? = some true := by
  induction h with
  | nil => simp
  | skip hflag hrest ih =>
      intro t ht
      rcases List.mem_cons.1 ht with rfl | ht
      · exact hrest.explored_mono hflag
      · exact ih t ht
  | enter hflag _ hc hs _ ihs =>
      intro t ht
      rcases List.mem_cons.1 ht with rfl | ht
      · exact hs.explored_mono (hc.explored_mono ((getElem?_mark_eq_true hflag).2 (.inl rfl)))
      · exact ihs t ht

/-- Every neighbour of an entered vertex is explored at the end. -/
theorem neighbors_explored (h : g.Explores before targets forest after) {x y : Nat}
    (hx : x ∈ forest.vertices) (he : g.Edge x y) : after[y]? = some true := by
  induction h with
  | nil => simp at hx
  | skip _ _ ih => exact ih hx
  | enter _ hadj hc hs ihc ihs =>
      rcases Forest.mem_vertices_tree.1 hx with rfl | hx | hx
      · obtain ⟨neighbors, hadj', hy⟩ := he
        rw [hadj] at hadj'
        cases hadj'
        exact hs.explored_mono (hc.targets_explored y (Array.mem_toList_iff.2 hy))
      · exact hs.explored_mono (ihc hx)
      · exact ihs hx

/-! ## What is entered -/

/-- An entered vertex is reached from the list along vertices that were unexplored at the start. -/
theorem exists_walk_of_mem (h : g.Explores before targets forest after) {x : Nat}
    (hx : x ∈ forest.vertices) :
    ∃ t ∈ targets, g.ReachesWithin (fun y => before[y]? = some false) t x := by
  induction h with
  | nil => simp at hx
  | skip _ _ ih =>
      obtain ⟨t, ht, hwalk⟩ := ih hx
      exact ⟨t, List.mem_cons_of_mem _ ht, hwalk⟩
  | @enter flags between after target rest neighbors children siblings hflag hadj hc _ ihc ihs =>
      rcases Forest.mem_vertices_tree.1 hx with rfl | hx | hx
      · exact ⟨x, List.mem_cons_self, .refl hflag⟩
      · obtain ⟨t, ht, hwalk⟩ := ihc hx
        have hedge : g.Edge target t := ⟨neighbors, hadj, Array.mem_toList_iff.1 ht⟩
        refine ⟨target, List.mem_cons_self, .head hflag hedge (hwalk.mono ?_)⟩
        exact fun y hy => (getElem?_mark_eq_false.1 hy).2
      · obtain ⟨t, ht, hwalk⟩ := ihs hx
        refine ⟨t, List.mem_cons_of_mem _ ht, hwalk.mono ?_⟩
        exact fun y hy => (getElem?_mark_eq_false.1 ((hc.unexplored_iff y).1 hy).1).2

/-- What is reached from the list along unexplored vertices is entered. -/
theorem mem_of_walk (h : g.Explores before targets forest after) {t x : Nat} (ht : t ∈ targets)
    (hwalk : g.ReachesWithin (fun y => before[y]? = some false) t x) : x ∈ forest.vertices := by
  induction hwalk with
  | refl ht' => exact h.mem_of_explored ht' (h.targets_explored t ht)
  | tail _ he hz ih => exact h.mem_of_explored hz (h.neighbors_explored ih he)

/-- The forest holds exactly the vertices reachable from the list along unexplored vertices. -/
theorem mem_vertices_iff (h : g.Explores before targets forest after) {x : Nat} :
    x ∈ forest.vertices ↔
      ∃ t ∈ targets, g.ReachesWithin (fun y => before[y]? = some false) t x :=
  ⟨h.exists_walk_of_mem, fun ⟨_, ht, hwalk⟩ => h.mem_of_walk ht hwalk⟩

/-! ## The order of finishing -/

/-- The root of a tree reaches all of the tree. -/
theorem reaches_of_mem_children {flags between : Array Bool} {root x : Nat} {neighbors : Array Nat}
    {children : Forest} (hadj : g.adjacency[root]? = some neighbors)
    (hc : g.Explores flags neighbors.toList children between) (hx : x ∈ children.vertices) :
    g.Reaches root x := by
  obtain ⟨t, ht, hwalk⟩ := hc.exists_walk_of_mem hx
  have hedge : g.Edge root t := ⟨neighbors, hadj, Array.mem_toList_iff.1 ht⟩
  exact hedge.reaches.trans hwalk.reaches

/-- Where an element stands in a postorder: inside the first tree, at its root, or after it. -/
theorem postorder_split {root r : Nat} {children siblings : Forest} {front back : List Nat}
    (h : (Forest.tree root children siblings).postorder = front ++ r :: back) :
    (∃ back', children.postorder = front ++ r :: back') ∨
      (r = root ∧ front = children.postorder) ∨
      (∃ front', front = children.postorder ++ root :: front' ∧
        siblings.postorder = front' ++ r :: back) := by
  rcases List.append_eq_append_iff.1 h with ⟨front', hfront, hrest⟩ | ⟨back', hchildren, hrest⟩
  · cases front' with
    | nil =>
        obtain ⟨rfl, -⟩ := List.cons_eq_cons.1 hrest
        exact .inr (.inl ⟨rfl, by simpa using hfront⟩)
    | cons y front' =>
        obtain ⟨rfl, hsiblings⟩ := List.cons_eq_cons.1 hrest
        exact .inr (.inr ⟨front', hfront, hsiblings⟩)
  · cases back' with
    | nil =>
        obtain ⟨rfl, -⟩ := List.cons_eq_cons.1 hrest
        exact .inr (.inl ⟨rfl, by simpa using hchildren.symm⟩)
    | cons y back' =>
        obtain ⟨rfl, -⟩ := List.cons_eq_cons.1 hrest
        exact .inl ⟨back', hchildren⟩

/-- No edge leads from what is entered first to what is entered later. -/
theorem notMem_later_of_edge {between : Array Bool} {rest : List Nat} {later : Forest} {x y : Nat}
    (h : g.Explores before targets forest between) (hlater : g.Explores between rest later after)
    (hx : x ∈ forest.vertices) (he : g.Edge x y) : y ∉ later.vertices := fun hy =>
  not_explored_of_unexplored (hlater.unexplored_of_mem y hy) (h.neighbors_explored hx he)

/-- A walk whose end is finished after all its other vertices can be walked back: its end reaches
its start. -/
theorem reaches_of_last (h : g.Explores before targets forest after) {r x : Nat} :
    ∀ {front back : List Nat}, forest.postorder = front ++ r :: back →
      g.ReachesWithin (fun y => y ∈ front ∨ y = r) x r → g.Reaches r x := by
  induction h with
  | nil => intro front back hsplit; simp [Forest.postorder] at hsplit
  | skip _ _ ih => exact ih
  | @enter flags between after target rest neighbors children siblings hflag hadj hc hs ihc ihs =>
      intro front back hsplit hwalk
      rcases postorder_split hsplit with ⟨back', hback⟩ | ⟨rfl, rfl⟩ | ⟨front', rfl, hback⟩
      · exact ihc hback hwalk
      · -- The end is the root of the first tree, and the walk starts in that tree.
        rcases hwalk.source with hx | rfl
        · exact reaches_of_mem_children hadj hc (children.postorder_perm.mem_iff.1 hx)
        · exact .refl
      · -- No edge leads from the first tree to a later one, so the walk lies in the later trees.
        have htree := Explores.enter hflag hadj hc (.nil between)
        have hplace : ∀ y, (y ∈ children.postorder ++ target :: front' ∨ y = r) →
            y ∈ (Forest.tree target children .empty).vertices ∨ y ∈ front' ∨ y = r := by
          intro y hy
          simp only [Forest.mem_vertices_tree, ← children.postorder_perm.mem_iff]
          simp only [List.mem_append, List.mem_cons] at hy
          rcases hy with (hy | hy | hy) | hy
          · exact .inl (.inr (.inl hy))
          · exact .inl (.inl hy)
          · exact .inr (.inl hy)
          · exact .inr (.inr hy)
        have hlater : ∀ y, y ∈ front' ∨ y = r → y ∈ siblings.vertices := by
          intro y hy
          rw [← siblings.postorder_perm.mem_iff, hback, List.mem_append, List.mem_cons]
          exact hy.imp_right .inl
        have hclosed : ∀ y z, y ∈ (Forest.tree target children .empty).vertices → g.Edge y z →
            (z ∈ children.postorder ++ target :: front' ∨ z = r) →
            z ∈ (Forest.tree target children .empty).vertices := by
          intro y z hy he hz
          refine (hplace z hz).resolve_right ?_
          exact fun hz => htree.notMem_later_of_edge hs hy he (hlater z hz)
        have hr := htree.notMem_of_later hs (hlater r (.inr rfl))
        refine ihs hback ((hwalk.avoid hclosed hr).mono ?_)
        rintro y ⟨hy, hnot⟩
        exact (hplace y hy).resolve_left hnot

end Graph.Explores

end StrongComponents
