import StrongComponents.Proofs.Components.Classes

/-!
# What grouping by leader amounts to

`Partition.GroupsBy` says of a partition that its two tables group the vertices by their leaders,
without the leaders' values and without the order of the loop: vertices have one number iff they
have one leader, a component lists its vertices in ascending order, and components are numbered by
their first members. The partition of every list of leaders does that, and grouping by the numbers
it gave changes nothing (`ofLeaders_groupsBy`).
-/

set_option autoImplicit false

namespace StrongComponents.Partition

/-- The tables of a partition agree with each other and with the leaders. -/
structure GroupsBy (p : Partition) (leaders : Array Nat) : Prop where
  size_eq : p.componentOf.size = leaders.size
  /-- Two vertices have the same number iff they have the same leader. -/
  eq_iff : ∀ u v : Nat, p.componentOf[u]? = p.componentOf[v]? ↔ leaders[u]? = leaders[v]?
  /-- Every number is that of a component. -/
  lt_size : ∀ c ∈ p.componentOf, c < p.components.size
  nonempty : ∀ members ∈ p.components, members ≠ #[]
  /-- Members ascend, each of them listed once. -/
  ascending : ∀ members ∈ p.components, members.toList.Pairwise (· < ·)
  /-- A component holds the vertices with its number. -/
  mem_iff : ∀ (c : Nat) (members : Array Nat), p.components[c]? = some members →
    ∀ v : Nat, v ∈ members ↔ p.componentOf[v]? = some c
  /-- The first members of the components ascend. -/
  first_lt : p.components.toList.Pairwise fun members members' =>
    ∀ u ∈ members[0]?, ∀ v ∈ members'[0]?, u < v
  /-- Every vertex is a member of one component. -/
  perm : (p.components.toList.flatMap Array.toList).Perm (List.range leaders.size)

variable (leaders : Array Nat)

/-! ## The two tables -/

/-- The number of a vertex is the place of its leader among the leaders by first vertices. -/
theorem getElem?_componentOf (v : Nat) :
    (grouped leaders).componentOf[v]? = leaders[v]?.map leaders.toList.eraseDups.idxOf := by
  rw [grouped, List.getElem?_toArray, numbers, List.getElem?_map, Array.getElem?_toList]

/-- A component belongs to the leader at its place. -/
theorem getElem?_components (c : Nat) :
    (grouped leaders).components[c]? =
      leaders.toList.eraseDups[c]?.map fun l => (leaders.toList.idxsOf l).toArray := by
  rw [grouped, List.getElem?_toArray, members, List.getElem?_map]

variable {leaders}

theorem mem_eraseDups_of_getElem? {v l : Nat} (h : leaders[v]? = some l) :
    l ∈ leaders.toList.eraseDups := by
  rw [List.mem_eraseDups, Array.mem_toList_iff]
  exact Array.mem_of_getElem? h

/-- Leaders have different numbers. -/
theorem componentOf_eq_iff (u v : Nat) :
    (grouped leaders).componentOf[u]? = (grouped leaders).componentOf[v]? ↔
      leaders[u]? = leaders[v]? := by
  rw [getElem?_componentOf, getElem?_componentOf]
  cases hu : leaders[u]? with
  | none => cases leaders[v]? <;> simp
  | some l =>
      cases leaders[v]? with
      | none => simp
      | some m =>
          simp only [Option.map_some, Option.some.injEq]
          exact List.idxOf_inj (mem_eraseDups_of_getElem? hu)

theorem lt_size_of_mem_componentOf {c : Nat} (hc : c ∈ (grouped leaders).componentOf) :
    c < (grouped leaders).components.size := by
  obtain ⟨v, hv⟩ := Array.mem_iff_getElem?.1 hc
  rw [getElem?_componentOf, Option.map_eq_some_iff] at hv
  obtain ⟨l, hl, rfl⟩ := hv
  rw [← Array.length_toList, toList_components, members, List.length_map]
  exact List.idxOf_lt_length_of_mem (mem_eraseDups_of_getElem? hl)

/-- The members of a component are the vertices with its number. -/
theorem mem_iff_componentOf {c : Nat} {members : Array Nat}
    (hc : (grouped leaders).components[c]? = some members) (v : Nat) :
    v ∈ members ↔ (grouped leaders).componentOf[v]? = some c := by
  rw [getElem?_components, Option.map_eq_some_iff] at hc
  obtain ⟨l, hl, rfl⟩ := hc
  obtain ⟨hlt, rfl⟩ := List.getElem?_eq_some_iff.1 hl
  rw [List.mem_toArray, mem_idxsOf_iff, Array.getElem?_toList, getElem?_componentOf,
    Option.map_eq_some_iff]
  constructor
  · intro hv
    exact ⟨_, hv, (nodup_eraseDups leaders.toList).idxOf_getElem c hlt⟩
  · -- No other leader has that place.
    rintro ⟨m, hm, rfl⟩
    rw [hm, List.getElem_idxOf]

/-- The first member of a component comes before the first member of every later one. -/
theorem pairwise_first (leaders : Array Nat) :
    (grouped leaders).components.toList.Pairwise fun members members' =>
      ∀ u ∈ members[0]?, ∀ v ∈ members'[0]?, u < v := by
  apply (pairwise_components leaders).imp_of_mem
  rintro members members' hmembers - ⟨w, hw, hbefore⟩ u hu v hv
  have hascending := pairwise_of_mem_components (Array.mem_toList_iff.1 hmembers)
  -- The first member is not above any other, so neither above the one that comes before the later
  -- component.
  have hle : u ≤ w := by
    obtain ⟨i, hi⟩ := Array.mem_iff_getElem?.1 hw
    obtain ⟨hlt, rfl⟩ := Array.getElem?_eq_some_iff.1 hi
    obtain ⟨hpos, rfl⟩ := Array.getElem?_eq_some_iff.1 hu
    cases i with
    | zero => exact Nat.le_refl _
    | succ i =>
        exact Nat.le_of_lt (List.pairwise_iff_getElem.1 hascending 0 (i + 1) hpos hlt
          (Nat.succ_pos i))
  exact Nat.lt_of_le_of_lt hle (hbefore v (Array.mem_of_getElem? hv))

/-- Every list of leaders can be grouped. The partition groups the vertices by their leaders, and
its numbers, taken as leaders, give the same partition again. -/
theorem ofLeaders_groupsBy (leaders : Array Nat) :
    ∃ p, ofLeaders leaders = .ok p ∧ p.GroupsBy leaders ∧ ofLeaders p.componentOf = .ok p := by
  have hsize : (grouped leaders).componentOf.size = leaders.size := by
    rw [← Array.length_toList, grouped, length_numbers, Array.length_toList]
  refine ⟨grouped leaders, ofLeaders_eq leaders, ?_, ?_⟩
  · exact
      { size_eq := hsize
        eq_iff := componentOf_eq_iff
        lt_size := fun _ => lt_size_of_mem_componentOf
        nonempty := fun _ => nonempty_of_mem_components
        ascending := fun _ => pairwise_of_mem_components
        mem_iff := fun _ _ => mem_iff_componentOf
        first_lt := pairwise_first leaders
        perm := flatMap_components_perm leaders }
  · -- Numbers tell vertices apart exactly where leaders do.
    rw [ofLeaders_eq, grouped_congr hsize fun u _ v _ => componentOf_eq_iff u v]

end StrongComponents.Partition
