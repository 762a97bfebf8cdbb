import StrongComponents.Proofs.Graph.Reversal
import StrongComponents.Proofs.Traversal.Outcome
import Mathlib.Data.List.Permutation

/-!
# The vertices that a search discovers

`Graph.reachableFrom` lists the vertices that a search discovers among unexplored vertices.
`Graph.Discovers` says what such a list is, with walks and edges alone: the vertices that the start
reaches, each of them once, the start first and every other one behind a vertex that has an edge to
it. On a well-formed graph the search lists them from every vertex, and two searches, one of them in
the graph turned round, can be compared through the walks (`reachableFrom_law`).
-/

set_option autoImplicit false

namespace StrongComponents

/-- The record of discoveries is the vertices of the forest, in their order. -/
theorem Visitor.replay_discovered (f : Forest) :
    ∀ found : Array Nat, discovered.replay f.visits found = found ++ f.vertices.toArray := by
  induction f with
  | empty => intro found; simp [Forest.visits]
  | tree root children siblings ihc ihs =>
      intro found
      -- The finish of the root stands between the two inner lists of reports and adds nothing.
      simp only [Forest.visits, Forest.vertices, replay_cons, replay_append, report, ihc, ihs]
      simp [discovered]

/-- Where an element stands in the vertices of a tree and its siblings: at the root, among
the children, or after them. -/
theorem Forest.vertices_split {root v : Nat} {children siblings : Forest} {pre post : List Nat}
    (h : (tree root children siblings).vertices = pre ++ v :: post) :
    (v = root ∧ pre = []) ∨
      (∃ pre' post', pre = root :: pre' ∧ children.vertices = pre' ++ v :: post') ∨
      ∃ pre', pre = root :: (children.vertices ++ pre') ∧
        siblings.vertices = pre' ++ v :: post := by
  cases pre with
  | nil =>
      obtain ⟨rfl, -⟩ := List.cons_eq_cons.1 h
      exact .inl ⟨rfl, rfl⟩
  | cons first pre =>
      obtain ⟨rfl, hrest⟩ := List.cons_eq_cons.1 h
      rcases List.append_eq_append_iff.1 hrest with ⟨pre', rfl, hsiblings⟩ |
        ⟨post', hchildren, hmiddle⟩
      · exact .inr (.inr ⟨pre', rfl, hsiblings⟩)
      · cases post' with
        | nil =>
            -- The children end right before `v`, so `v` is the first of the siblings.
            rw [List.append_nil] at hchildren
            exact .inr (.inr ⟨[], by rw [hchildren, List.append_nil], hmiddle.symm⟩)
        | cons w post' =>
            obtain ⟨rfl, -⟩ := List.cons_eq_cons.1 hmiddle
            exact .inr (.inl ⟨pre, post', rfl, hchildren⟩)

namespace Graph

/-- A vertex is entered because it is listed or because a vertex entered before it has an edge to
it. -/
theorem Explores.listed_or_edge {g : Graph} {before after : Array Bool} {targets : List Nat}
    {forest : Forest} (h : g.Explores before targets forest after) {v : Nat} :
    ∀ {pre post : List Nat}, forest.vertices = pre ++ v :: post → v ∈ targets ∨
      ∃ u ∈ pre, g.Edge u v := by
  induction h with
  | nil => intro pre post hsplit; simp at hsplit
  | skip _ _ ih =>
      intro pre post hsplit
      exact (ih hsplit).imp_left (List.mem_cons_of_mem _)
  | @enter flags between after target rest neighbors children siblings _ hadj _ _ ihc ihs =>
      intro pre post hsplit
      rcases Forest.vertices_split hsplit with ⟨rfl, -⟩ | ⟨pre', post', rfl, hinside⟩ |
        ⟨pre', rfl, hlater⟩
      · exact .inl List.mem_cons_self
      · rcases ihc hinside with hneighbor | ⟨u, hu, hedge⟩
        · -- A child that is listed is a neighbour of the root.
          exact .inr ⟨target, List.mem_cons_self, neighbors, hadj, Array.mem_toList_iff.1 hneighbor⟩
        · exact .inr ⟨u, List.mem_cons_of_mem _ hu, hedge⟩
      · rcases ihs hlater with hlisted | ⟨u, hu, hedge⟩
        · exact .inl (List.mem_cons_of_mem _ hlisted)
        · exact .inr ⟨u, List.mem_cons_of_mem _ (List.mem_append_right _ hu), hedge⟩

/-- What a search from `start` lists: every vertex that `start` reaches, once, `start` first and
each other one after a vertex with an edge to it. -/
structure Discovers (g : Graph) (start : Nat) (found : List Nat) : Prop where
  nodup : found.Nodup
  first : found.head? = some start
  mem_iff : ∀ v, v ∈ found ↔ g.Reaches start v
  after_neighbor : ∀ pre v post, found = pre ++ v :: post → pre ≠ [] → ∃ u ∈ pre, g.Edge u v

variable {g : Graph} {start : Nat}

/-- On a well-formed graph every walk from a vertex keeps to vertices. -/
theorem Reaches.within_vertices (hg : g.WellFormed) (hstart : start < g.vertexCount) {v : Nat}
    (h : g.Reaches start v) : g.ReachesWithin (· < g.vertexCount) start v := by
  induction h with
  | refl => exact .refl hstart
  | tail _ he ih => exact .tail ih he (he.target_lt hg)

/-- Where nothing is explored, the vertices are what is unexplored. -/
theorem unexplored_replicate_iff {n v : Nat} :
    (Array.replicate n false)[v]? = some false ↔ v < n := by
  simp [Array.getElem?_replicate]

/-- The tree that grows from a vertex where nothing is explored lists what that vertex reaches. -/
theorem Explores.discovers (hg : g.WellFormed) (hstart : start < g.vertexCount) {children : Forest}
    {after : Array Bool}
    (h : g.Explores (Array.replicate g.vertexCount false) [start] (.tree start children .empty)
      after) :
    g.Discovers start (Forest.tree start children .empty).vertices where
  nodup := h.vertices_nodup
  first := rfl
  mem_iff := by
    intro v
    simp only [h.mem_vertices_iff, unexplored_replicate_iff, List.mem_singleton, exists_eq_left]
    exact ⟨ReachesWithin.reaches, Reaches.within_vertices hg hstart⟩
  after_neighbor := by
    intro pre v post hsplit hpre
    refine (h.listed_or_edge hsplit).resolve_left ?_
    -- The only listed vertex is the start, which stands at the front and nowhere else.
    intro hlisted
    obtain rfl := List.mem_singleton.1 hlisted
    have hnodup := h.vertices_nodup
    rcases Forest.vertices_split hsplit with ⟨-, hnil⟩ | ⟨pre', post', -, hinside⟩ |
      ⟨pre', -, hlater⟩
    · exact hpre hnil
    · rw [Forest.vertices, hinside] at hnodup
      simp at hnodup
    · simp at hlater

/-- On a well-formed graph the search from a vertex lists what the vertex reaches. -/
theorem exists_reachableFrom (hg : g.WellFormed) (hstart : start < g.vertexCount) :
    ∃ found, g.reachableFrom start = .ok found ∧ g.Discovers start found.toList := by
  have hflag : (Array.replicate g.vertexCount false)[start]? = some false :=
    unexplored_replicate_iff.2 hstart
  have hends : g.EndsOrStrays
      (Worklist.traverse g Visitor.discovered start (Search.fresh g.vertexCount #[])) :=
    Worklist.traverse_endsOrStrays Array.size_replicate hflag
  obtain ⟨⟨after, found⟩, htraverse, -⟩ := hends.exists_ok hg
  have hplace : g.traverseInPlace .iterative Visitor.discovered start
    (Search.fresh g.vertexCount #[]) = .ok ⟨after, found⟩ := htraverse
  obtain ⟨neighbors, children, hadj, hchildren, hrecord⟩ := enters_of_traverseInPlace hplace
  have hfound : found.toList = (Forest.tree start children .empty).vertices := by
    have hlist := congrArg Array.toList hrecord
    rw [Visitor.replay_discovered] at hlist
    simpa [Search.fresh] using hlist
  refine ⟨found, ?_, ?_⟩
  · rw [reachableFrom, if_pos hstart, htraverse]
  · rw [hfound]
    exact Explores.discovers hg hstart (.enter hflag hadj hchildren (.nil after))

/-- Only a number that is no vertex is refused as the start of a search. -/
theorem reachableFrom_eq_error_iff (hg : g.WellFormed) :
    g.reachableFrom start = .error (.vertexOutOfRange start g.vertexCount) ↔
      g.vertexCount ≤ start := by
  constructor
  · intro hrefused
    by_contra hlt
    obtain ⟨found, hfound, -⟩ := exists_reachableFrom hg (Nat.lt_of_not_le hlt)
    rw [hrefused] at hfound
    cases hfound
  · intro hle
    rw [reachableFrom, if_neg (Nat.not_lt.2 hle)]

/-- A well-formed graph: a search is refused iff its start is no vertex, and else it lists
exactly what the start reaches, without repetition, the start first and every other vertex
behind one that has an edge to it. Searching from `u` finds `v` iff searching from `v` in the
graph turned round finds `u`. -/
theorem reachableFrom_law (g : Graph) (hg : g.WellFormed) :
    (∀ start, g.reachableFrom start = .error (.vertexOutOfRange start g.vertexCount) ↔
      g.vertexCount ≤ start) ∧
      (∀ start < g.vertexCount, ∃ found, g.reachableFrom start = .ok found ∧
        g.Discovers start found.toList) ∧
      ∃ turned, g.reversed = .ok turned ∧ ∀ u < g.vertexCount, ∀ v < g.vertexCount,
        ∃ ahead behind, g.reachableFrom u = .ok ahead ∧ turned.reachableFrom v = .ok behind ∧
          (v ∈ ahead ↔ u ∈ behind) := by
  refine ⟨fun _ => reachableFrom_eq_error_iff hg, fun _ => exists_reachableFrom hg, ?_⟩
  obtain ⟨turned, hturned, hcount, -⟩ := exists_reversed hg
  refine ⟨turned, hturned, ?_⟩
  intro u hu v hv
  obtain ⟨ahead, hahead, hreached⟩ := exists_reachableFrom hg hu
  obtain ⟨behind, hbehind, hreached'⟩ :=
    exists_reachableFrom (wellFormed_of_reversed hg hturned) (hcount ▸ hv)
  refine ⟨ahead, behind, hahead, hbehind, ?_⟩
  rw [← Array.mem_toList_iff, ← Array.mem_toList_iff, hreached.mem_iff, hreached'.mem_iff]
  -- The walks of one graph are those of the other walked backwards.
  exact ⟨Reaches.reverse fun x y => (edge_of_reversed hg hturned).2,
    Reaches.reverse fun x y => (edge_of_reversed hg hturned).1⟩

/-- A cycle `1 → 3 → 1` behind two ways from `0`, a doubled edge, and `4`, which leads to all
and to which nothing leads. -/
theorem reachableFrom_law_diamond :
    (⟨#[#[1, 2], #[3], #[3, 3], #[1], #[0]]⟩ : Graph).WellFormed ∧
      (⟨#[#[1, 2], #[3], #[3, 3], #[1], #[0]]⟩ : Graph).reachableFrom 0 = .ok #[0, 1, 3, 2] ∧
      (⟨#[#[1, 2], #[3], #[3, 3], #[1], #[0]]⟩ : Graph).Discovers 0 [0, 1, 3, 2] ∧
      (⟨#[#[1, 2], #[3], #[3, 3], #[1], #[0]]⟩ : Graph).reachableFrom 5 =
        .error (.vertexOutOfRange 5 5) ∧
      ∃ turned behind, (⟨#[#[1, 2], #[3], #[3, 3], #[1], #[0]]⟩ : Graph).reversed = .ok turned ∧
        turned.reachableFrom 3 = .ok behind ∧ 4 ∈ behind := by
  have hg : (⟨#[#[1, 2], #[3], #[3, 3], #[1], #[0]]⟩ : Graph).WellFormed := by decide
  have hrun : (⟨#[#[1, 2], #[3], #[3, 3], #[1], #[0]]⟩ : Graph).reachableFrom 0 =
    .ok #[0, 1, 3, 2] := by cbv
  have hahead : (⟨#[#[1, 2], #[3], #[3, 3], #[1], #[0]]⟩ : Graph).reachableFrom 4 =
    .ok #[4, 0, 1, 3, 2] := by cbv
  obtain ⟨hrefused, hfinds, turned, hturned, hdual⟩ := reachableFrom_law _ hg
  obtain ⟨found, hfound, hdiscovers⟩ := hfinds 0 (by decide)
  rw [hrun] at hfound
  cases hfound
  obtain ⟨ahead, behind, hahead', hbehind, hiff⟩ := hdual 4 (by decide) 3 (by decide)
  rw [hahead] at hahead'
  cases hahead'
  exact ⟨hg, hrun, hdiscovers, (hrefused 5).2 (by decide), turned, behind, hturned, hbehind,
    hiff.1 (by simp)⟩

end Graph

end StrongComponents
