import StrongComponents.Proofs.Traversal.Outcome

/-!
# Reports of a traversal: nesting and white paths

The reports of a depth-first traversal are a properly nested sequence of brackets, one pair for each
vertex that becomes explored. Between the two reports on a vertex stand exactly the discoveries of
what it reaches along vertices that were unexplored before it was discovered. `DepthFirstLaw` says
all this of a list of reports, without reference to how it came about, and `traverse_iterative_law`
proves it of the worklist traversal on every well-formed graph, from all flags.
-/

set_option autoImplicit false

namespace StrongComponents

/-- Properly nested reports: each discovery is closed by the finish of the same vertex, with
properly nested reports inside and after. -/
inductive Balanced : List Visit → Prop where
  | nil : Balanced []
  | bracket {v : Nat} {inner rest : List Visit} :
      Balanced inner → Balanced rest → Balanced (.discover v :: (inner ++ .finish v :: rest))

namespace Forest

theorem balanced_visits (f : Forest) : Balanced f.visits := by
  induction f with
  | empty => exact .nil
  | tree root children siblings ihc ihs => exact .bracket ihc ihs

theorem count_discover (f : Forest) (v : Nat) :
    f.visits.count (.discover v) = f.vertices.count v := by
  induction f with
  | empty => rfl
  | tree root children siblings ihc ihs =>
      simp only [visits, vertices, List.count_cons, List.count_append, ihc, ihs, beq_iff_eq,
        reduceCtorEq, Visit.discover.injEq, if_false, Nat.add_zero]

theorem count_finish (f : Forest) (v : Nat) : f.visits.count (.finish v) = f.vertices.count v := by
  induction f with
  | empty => rfl
  | tree root children siblings ihc ihs =>
      simp only [visits, vertices, List.count_cons, List.count_append, ihc, ihs, beq_iff_eq,
        reduceCtorEq, Visit.finish.injEq, if_false, Nat.add_zero]
      omega

/-- Where a discovery stands in the reports on a tree and its siblings: at the front,
inside the tree, or after it. -/
theorem visits_split {root v : Nat} {children siblings : Forest} {pre post : List Visit}
    (h : (tree root children siblings).visits = pre ++ .discover v :: post) :
    (v = root ∧ pre = [] ∧ post = children.visits ++ .finish root :: siblings.visits) ∨
      (∃ pre' post', pre = .discover root :: pre' ∧ children.visits = pre' ++ .discover v :: post' ∧
        post = post' ++ .finish root :: siblings.visits) ∨
      (∃ pre', pre = .discover root :: (children.visits ++ .finish root :: pre') ∧
        siblings.visits = pre' ++ .discover v :: post) := by
  cases pre with
  | nil =>
      obtain ⟨hroot, hpost⟩ := List.cons_eq_cons.1 h
      cases hroot
      exact .inl ⟨rfl, rfl, hpost.symm⟩
  | cons first pre =>
      obtain ⟨rfl, hrest⟩ := List.cons_eq_cons.1 h
      rcases List.append_eq_append_iff.1 hrest with ⟨middle, rfl, hmiddle⟩ |
        ⟨middle, hchildren, hmiddle⟩
      · -- The discovery stands after the tree's children, hence after the finish of its root.
        cases middle with
        | nil => cases hmiddle
        | cons closing middle =>
            obtain ⟨rfl, hsiblings⟩ := List.cons_eq_cons.1 hmiddle
            exact .inr (.inr ⟨middle, rfl, hsiblings⟩)
      · cases middle with
        | nil => cases hmiddle
        | cons opening middle =>
            obtain ⟨rfl, hpost⟩ := List.cons_eq_cons.1 hmiddle
            exact .inr (.inl ⟨pre, middle, rfl, hchildren, hpost⟩)

end Forest

namespace Graph

namespace Explores

variable {g : Graph} {before after : Array Bool} {targets : List Nat} {forest : Forest}

/-- At each discovery in the reports, the search enters that vertex with the flags set at the start
and by the discoveries so far, and finishes it after what it leads to. -/
theorem exists_enter_of_visits (h : g.Explores before targets forest after) {v : Nat} :
    ∀ {pre post : List Visit}, forest.visits = pre ++ .discover v :: post →
      ∃ (flags between : Array Bool) (neighbors : Array Nat) (children : Forest)
        (rest : List Visit),
        flags[v]? = some false ∧ g.adjacency[v]? = some neighbors ∧
        g.Explores (flags.setIfInBounds v true) neighbors.toList children between ∧
        post = children.visits ++ .finish v :: rest ∧
        ∀ x, flags[x]? = some false ↔ before[x]? = some false ∧ .discover x ∉ pre := by
  induction h with
  | nil =>
      intro pre post hsplit
      simp [Forest.visits] at hsplit
  | skip _ _ ih => exact ih
  | @enter flags between after target rest neighbors children siblings hflag hadj hc hs ihc ihs =>
      intro pre post hsplit
      rcases Forest.visits_split hsplit with ⟨rfl, rfl, rfl⟩ | ⟨pre', post', rfl, hinside, rfl⟩ |
        ⟨pre', rfl, hlater⟩
      · refine ⟨flags, between, neighbors, children, siblings.visits, hflag, hadj, hc, rfl, ?_⟩
        -- Nothing is reported before the first discovery.
        intro x
        simp
      · obtain ⟨flags', between', neighbors', children', rest', hv, hadj', hc', rfl, hflags⟩ :=
          ihc hinside
        refine ⟨flags', between', neighbors', children', rest' ++ .finish target :: siblings.visits,
          hv, hadj', hc', by simp, ?_⟩
        -- Inside the tree the discovery of its root comes before the reports on the children so
        -- far.
        intro x
        rw [hflags, getElem?_mark_eq_false, List.mem_cons, Visit.discover.injEq, not_or, and_assoc]
        exact and_left_comm
      · obtain ⟨flags', between', neighbors', children', rest', hv, hadj', hc', rfl, hflags⟩ :=
          ihs hlater
        refine ⟨flags', between', neighbors', children', rest', hv, hadj', hc', rfl, ?_⟩
        -- After the tree all of its vertices are discovered.
        intro x
        rw [hflags, hc.unexplored_iff, getElem?_mark_eq_false, ← Forest.discover_mem_visits]
        simp only [List.mem_cons, List.mem_append, Visit.discover.injEq, reduceCtorEq, false_or,
          not_or, and_assoc]
        exact and_left_comm

/-- The reports on an entered vertex stand in the list, its finish after its discovery. -/
theorem exists_bracket_of_mem (h : g.Explores before targets forest after) {v : Nat}
    (hv : v ∈ forest.vertices) :
    ∃ pre inner post, forest.visits = pre ++ .discover v :: (inner ++ .finish v :: post) := by
  obtain ⟨pre, post, hsplit⟩ := List.append_of_mem (Forest.discover_mem_visits.2 hv)
  obtain ⟨-, -, -, children, rest, -, -, -, rfl, -⟩ := h.exists_enter_of_visits hsplit
  exact ⟨pre, children.visits, rest, hsplit⟩

/-- Between the two reports on a vertex are discovered exactly the vertices that it reaches along
vertices unexplored before its discovery. -/
theorem discover_between_iff (h : g.Explores before targets forest after) {v u : Nat}
    {pre inner post : List Visit}
    (hsplit : forest.visits = pre ++ .discover v :: (inner ++ .finish v :: post)) :
    (u = v ∨ .discover u ∈ inner) ↔
      g.ReachesWithin (fun x => before[x]? = some false ∧ .discover x ∉ pre) v u := by
  obtain ⟨flags, between, neighbors, children, rest, hv, hadj, hc, hrest, hflags⟩ :=
    h.exists_enter_of_visits hsplit
  -- The finish of `v` stands only once in the list, so what is inside is known.
  have honce : forest.visits.count (.finish v) ≤ 1 := by
    rw [forest.count_finish]
    exact List.nodup_iff_count_le_one.1 h.vertices_nodup v
  have hinner : .finish v ∉ inner ∧ .finish v ∉ post := by
    simp only [hsplit, List.count_append, List.count_cons_self, List.count_cons] at honce
    constructor
    · intro hmem
      have := List.count_pos_iff.2 hmem
      omega
    · intro hmem
      have := List.count_pos_iff.2 hmem
      omega
  obtain ⟨rfl, -, -⟩ := (List.append_cons_inj_of_notMem hinner.1 hinner.2).1 hrest
  have htree : u ∈ (Forest.tree v children .empty).vertices ↔
      ∃ t ∈ [v], g.ReachesWithin (fun x => flags[x]? = some false) t u :=
    (Explores.enter hv hadj hc (.nil between)).mem_vertices_iff
  simp only [Forest.mem_vertices_tree, Forest.vertices_empty, List.not_mem_nil, or_false,
    List.mem_singleton, exists_eq_left, hflags] at htree
  rw [Forest.discover_mem_visits, htree]

end Explores

/-! ## The law -/

/-- Depth-first reports of a traversal from `start` that takes the flags from `explored` to
`final`. -/
structure DepthFirstLaw (g : Graph) (start : Nat) (explored : Array Bool) (visits : List Visit)
    (final : Array Bool) : Prop where
  /-- The reports begin with the discovery of the start vertex. -/
  first : visits.head? = some (.discover start)
  /-- The reports end with its finish. -/
  last : visits.getLast? = some (.finish start)
  /-- Discoveries and finishes are properly nested. -/
  balanced : Balanced visits
  /-- A vertex that becomes explored is discovered once and after that finished once. -/
  once : ∀ v, explored[v]? = some false → final[v]? = some true →
    visits.count (.discover v) = 1 ∧ visits.count (.finish v) = 1 ∧
      ∃ pre inner post, visits = pre ++ .discover v :: (inner ++ .finish v :: post)
  /-- There is no report on what was explored before or is no vertex. -/
  absent : ∀ v, explored[v]? ≠ some false → .discover v ∉ visits ∧ .finish v ∉ visits
  /-- Between discovery and finish of `v` come the discoveries of what `v` reaches along vertices
  that were unexplored just before its discovery. -/
  whitePath : ∀ v pre inner post, visits = pre ++ .discover v :: (inner ++ .finish v :: post) →
    ∀ u, (u = v ∨ .discover u ∈ inner) ↔
      g.ReachesWithin (fun x => explored[x]? = some false ∧ .discover x ∉ pre) v u
  /-- The flags at the end are those at the start and those of the discovered vertices. -/
  flags : final.size = explored.size ∧
    ∀ v, final[v]? = some true ↔ explored[v]? = some true ∨ .discover v ∈ visits

/-- The tree that grows from an unexplored vertex is reported by the law. -/
theorem Explores.depthFirstLaw {g : Graph} {explored final : Array Bool} {start : Nat}
    {children : Forest} (h : g.Explores explored [start] (.tree start children .empty) final) :
    g.DepthFirstLaw start explored (Forest.tree start children .empty).visits final where
  first := rfl
  last := by
    show (Visit.discover start :: (children.visits ++ [.finish start])).getLast? = _
    rw [← List.cons_append, List.getLast?_concat]
  balanced := Forest.balanced_visits _
  once := by
    intro v hbefore hafter
    have hmem := h.mem_of_explored hbefore hafter
    refine ⟨?_, ?_, h.exists_bracket_of_mem hmem⟩
    · rw [Forest.count_discover, List.count_eq_one_of_mem h.vertices_nodup hmem]
    · rw [Forest.count_finish, List.count_eq_one_of_mem h.vertices_nodup hmem]
  absent := by
    intro v hv
    rw [Forest.discover_mem_visits, Forest.finish_mem_visits]
    have hnot : v ∉ (Forest.tree start children .empty).vertices := fun hmem =>
      hv (h.unexplored_of_mem v hmem)
    exact ⟨hnot, hnot⟩
  whitePath := fun v pre inner post hsplit u => h.discover_between_iff hsplit
  flags := by
    refine ⟨h.size_eq, ?_⟩
    intro v
    rw [h.explored_iff, Forest.discover_mem_visits]

end Graph

/-! ## The flags along the run -/

namespace Worklist

variable {g : Graph}

/-- The flags of a state are the initial ones and those of the vertices discovered so far. -/
def FlagsLogged (initial : Array Bool) (w : Worklist (Array Visit)) : Prop :=
  ∀ x, w.search.explored[x]? = some true ↔ initial[x]? = some true ∨ .discover x ∈ w.search.record

theorem flagsLogged_step {initial : Array Bool} {w next : Worklist (Array Visit)}
    (hw : FlagsLogged initial w) (h : step g Visitor.log w = .running next) :
    FlagsLogged initial next := by
  intro x
  cases move_of_step h with
  | finish _ _ =>
      have hx := hw x
      simpa [Search.finish, Visitor.log] using hx
  | skip _ _ _ => exact hw x
  | @descend v i target outer search neighbors _ _ hflag =>
      have hmark : (search.discover Visitor.log target).explored[x]? = some true ↔
          x = target ∨ search.explored[x]? = some true := getElem?_mark_eq_true hflag
      have hx := hw x
      rw [hmark]
      simp only [Search.discover, Visitor.log, Array.mem_push, Visit.discover.injEq] at hx ⊢
      rw [hx, or_comm]
      exact or_assoc

/-- Along the whole traversal the flags are the initial ones and those of the
vertices discovered so far. -/
theorem flagsLogged_after {initial : Array Bool} {n : Nat} {w state : Worklist (Array Visit)}
    (hw : FlagsLogged initial w) (h : after g Visitor.log n w = some state) :
    FlagsLogged initial state :=
  invariant_after (FlagsLogged initial) (fun _ _ hstep hstate => flagsLogged_step hstate hstep) n h
    hw

theorem flagsLogged_enter {explored : Array Bool} {start : Nat}
    (hstart : explored[start]? = some false) :
    FlagsLogged explored ⟨[⟨start, 0⟩], Search.discover Visitor.log start ⟨explored, #[]⟩⟩ := by
  intro x
  have hmark : (Search.discover Visitor.log start ⟨explored, #[]⟩).explored[x]? = some true ↔
      x = start ∨ explored[x]? = some true := getElem?_mark_eq_true hstart
  rw [hmark]
  simp only [Search.discover, Visitor.log, Array.mem_push, Array.not_mem_empty, false_or,
    Visit.discover.injEq]
  exact or_comm

end Worklist

/-- On a well-formed graph, from all flags and from every unexplored vertex, the worklist traversal
ends, and its reports are depth-first. At every state on the way the flags are the ones at the start
and those of the vertices discovered so far. -/
theorem Graph.traverse_iterative_law (g : Graph) (supply : Stack.Supply) (hg : g.WellFormed)
    (explored : Array Bool) (hsize : explored.size = g.vertexCount) (start : Nat)
    (hstart : explored[start]? = some false) :
    (∃ final visits,
      g.traverse supply .iterative Visitor.log start ⟨explored, #[]⟩ = .ok ⟨final, visits⟩ ∧
      g.DepthFirstLaw start explored visits.toList final) ∧
    ∀ n state, Worklist.stateAt g Visitor.log start ⟨explored, #[]⟩ n = some state →
      ∀ x, state.search.explored[x]? = some true ↔
        explored[x]? = some true ∨ .discover x ∈ state.search.record := by
  constructor
  · have hends : g.EndsOrStrays (Worklist.traverse g Visitor.log start ⟨explored, #[]⟩) :=
      Worklist.traverse_endsOrStrays hsize hstart
    obtain ⟨⟨final, visits⟩, htraverse, -⟩ := hends.exists_ok hg
    have hplace : g.traverseInPlace .iterative Visitor.log start ⟨explored, #[]⟩ =
        .ok ⟨final, visits⟩ :=
      htraverse
    obtain ⟨neighbors, children, hadj, hchildren, hrecord⟩ := enters_of_traverseInPlace hplace
    have htree : g.Explores explored [start] (.tree start children .empty) final :=
      .enter hstart hadj hchildren (.nil final)
    refine ⟨final, visits, hplace, ?_⟩
    have hvisits : visits.toList = (Forest.tree start children .empty).visits := by
      rw [Visitor.replay_log] at hrecord
      simpa using congrArg Array.toList hrecord
    rw [hvisits]
    exact htree.depthFirstLaw
  · intro n state hstate
    rw [Worklist.stateAt_eq_after hstart] at hstate
    exact Worklist.flagsLogged_after (Worklist.flagsLogged_enter hstart) hstate

/-- The law holds of the traversal from `0` in a graph with a cycle, where `1` is explored from the
start. -/
theorem Graph.traverse_iterative_law_diamond :
    (⟨#[#[1, 2], #[3], #[3], #[0]]⟩ : Graph).WellFormed ∧
      ∃ final visits,
        (⟨#[#[1, 2], #[3], #[3], #[0]]⟩ : Graph).traverse Stack.ofAddressSpace .iterative
          Visitor.log 0 ⟨#[false, true, false, false], #[]⟩ = .ok ⟨final, visits⟩ ∧
        (⟨#[#[1, 2], #[3], #[3], #[0]]⟩ : Graph).DepthFirstLaw 0 #[false, true, false, false]
          visits.toList final :=
  ⟨by decide,
    (Graph.traverse_iterative_law ⟨#[#[1, 2], #[3], #[3], #[0]]⟩ Stack.ofAddressSpace (by decide)
      #[false, true, false, false] (by decide) 0 (by decide)).1⟩

end StrongComponents
