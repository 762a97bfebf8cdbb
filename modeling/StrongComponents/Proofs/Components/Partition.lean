import StrongComponents.Components.Partition
import Mathlib.Data.List.Nodup
import Mathlib.Data.List.Permutation

/-!
# Grouping by leader

`Partition.ofLeaders` grows its two tables along the list of leaders. What it has after the
whole list is said here without the builder (`grouped`): the leaders, listed by their first
vertices, are numbered in that order, each vertex gets the number of its leader, and a component
holds the positions of its leader. No number is given to a component that is not there, so
nothing fails on the way (`ofLeaders_eq`).

The values of the leaders play no part. Two lists of leaders under which the same vertices have
equal leaders give the same partition, numbering included (`grouped_congr`). The sizes counted by
leader are the sizes of the components (`componentSizes_eq`), so they depend on the partition alone.
-/

set_option autoImplicit false

namespace StrongComponents

/-! ## First occurrences -/

section FirstOccurrences

variable {α : Type} [DecidableEq α]

theorem eraseDups_concat (xs : List α) (x : α) :
    (xs ++ [x]).eraseDups = if x ∈ xs then xs.eraseDups else xs.eraseDups ++ [x] := by
  rw [List.eraseDups_append]
  by_cases hx : x ∈ xs
  · simp [hx, List.removeAll]
  · simp [hx, List.removeAll, List.eraseDups_cons]

theorem nodup_eraseDups (xs : List α) : xs.eraseDups.Nodup := by
  induction xs using List.reverseRecOn with
  | nil => exact List.nodup_nil
  | append_singleton xs x ih =>
      rw [eraseDups_concat]
      split
      · exact ih
      · rename_i hx
        refine List.nodup_append'.2 ⟨ih, List.nodup_singleton x, ?_⟩
        rw [List.disjoint_singleton, List.mem_eraseDups]
        exact hx

end FirstOccurrences

namespace Partition

/-- For each vertex the number of its leader, where leaders are numbered by their first vertices. -/
def numbers (leaders : List Nat) : List Nat := leaders.map leaders.eraseDups.idxOf

/-- For each leader, by first vertices, the vertices that have it. -/
def members (leaders : List Nat) : List (Array Nat) :=
  leaders.eraseDups.map fun l => (leaders.idxsOf l).toArray

/-- The partition of a list of leaders, without the loop that makes it. -/
def grouped (leaders : Array Nat) : Partition :=
  ⟨(numbers leaders.toList).toArray, (members leaders.toList).toArray⟩

theorem length_numbers (leaders : List Nat) : (numbers leaders).length = leaders.length :=
  List.length_map _

/-- A further vertex whose leader has occurred gets the number of that leader. -/
theorem numbers_concat_of_mem {leaders : List Nat} {l : Nat} (hl : l ∈ leaders) :
    numbers (leaders ++ [l]) = numbers leaders ++ [leaders.eraseDups.idxOf l] := by
  rw [numbers, eraseDups_concat, if_pos hl, List.map_append]
  rfl

/-- A further vertex whose leader is new gets the next number, and the earlier vertices keep
theirs. -/
theorem numbers_concat_of_notMem {leaders : List Nat} {l : Nat} (hl : l ∉ leaders) :
    numbers (leaders ++ [l]) = numbers leaders ++ [leaders.eraseDups.length] := by
  have hnew : l ∉ leaders.eraseDups := fun h => hl (List.mem_eraseDups.1 h)
  rw [numbers, eraseDups_concat, if_neg hl, List.map_append]
  congr 1
  · apply List.map_congr_left
    intro k hk
    rw [List.idxOf_append, if_pos (List.mem_eraseDups.2 hk)]
  · rw [List.map_singleton, List.idxOf_append, if_neg hnew, List.idxOf_cons_self, Nat.zero_add]

/-- A further vertex is a position of its own leader and of no other. -/
theorem idxsOf_concat (leaders : List Nat) (k l : Nat) :
    (leaders ++ [l]).idxsOf k = leaders.idxsOf k ++ if l = k then [leaders.length] else [] := by
  rw [List.idxsOf_append, List.idxsOf_cons, List.idxsOf_nil, Nat.zero_add]
  simp only [beq_iff_eq]

/-- A further vertex whose leader has occurred joins the members under the number of that leader. -/
theorem members_concat_of_mem {leaders : List Nat} {l : Nat} (hl : l ∈ leaders) :
    members (leaders ++ [l]) =
      (members leaders).modify (leaders.eraseDups.idxOf l) (·.push leaders.length) := by
  apply List.ext_getElem?
  intro i
  rw [members, eraseDups_concat, if_pos hl, members, List.getElem?_modify, List.getElem?_map,
    List.getElem?_map]
  cases hi : leaders.eraseDups[i]? with
  | none => rfl
  | some k =>
      -- The leader at position `i` is `l` iff `i` is the number of `l`.
      obtain ⟨hlt, rfl⟩ := List.getElem?_eq_some_iff.1 hi
      have hnumber : leaders.eraseDups.idxOf l = i ↔ l = leaders.eraseDups[i] := by
        rw [← List.idxOf_inj (List.mem_eraseDups.2 hl),
          (nodup_eraseDups leaders).idxOf_getElem i hlt]
      simp only [Option.map_some, Option.map_eq_map, idxsOf_concat, hnumber]
      by_cases hli : l = leaders.eraseDups[i]
      · simp [← hli]
      · simp [hli]

/-- A further vertex whose leader is new is the only member of a new component. -/
theorem members_concat_of_notMem {leaders : List Nat} {l : Nat} (hl : l ∉ leaders) :
    members (leaders ++ [l]) = members leaders ++ [#[leaders.length]] := by
  have hnone : leaders.idxsOf l = [] := by
    rw [List.idxsOf_eq_nil_iff]
    intro k hk
    exact beq_eq_false_iff_ne.2 fun h => hl (h ▸ hk)
  rw [members, eraseDups_concat, if_neg hl, List.map_append]
  congr 1
  · apply List.map_congr_left
    intro k hk
    have hne : l ≠ k := fun h => hl (List.mem_eraseDups.1 (h ▸ hk))
    rw [idxsOf_concat, if_neg hne, List.append_nil]
  · rw [List.map_singleton, idxsOf_concat, if_pos rfl, hnone]
    rfl

/-! ## The builder -/

namespace Builder

/-- What a builder holds after the vertices with the given leaders. -/
structure Groups (leaders : List Nat) (b : Builder) : Prop where
  numberOf : ∀ l, b.numberOf[l]? = if l ∈ leaders then some (leaders.eraseDups.idxOf l) else none
  componentOf : b.partition.componentOf.toList = numbers leaders
  components : b.partition.components.toList = members leaders

namespace Groups

variable {leaders : List Nat} {b : Builder}

theorem size_componentOf (h : Groups leaders b) :
    b.partition.componentOf.size = leaders.length := by
  rw [← Array.length_toList, h.componentOf, length_numbers]

theorem size_components (h : Groups leaders b) :
    b.partition.components.size = leaders.eraseDups.length := by
  rw [← Array.length_toList, h.components, members, List.length_map]

/-- The next vertex finds its component, and keeps the tables as they should be. -/
theorem exists_add (h : Groups leaders b) (l : Nat) :
    ∃ b', b.add l = .ok b' ∧ Groups (leaders ++ [l]) b' := by
  have hcount := h.size_components
  have hsize := h.size_componentOf
  obtain ⟨⟨componentOf, components⟩, numberOf⟩ := b
  obtain ⟨hnumberOf, hcomponentOf, hcomponents⟩ := h
  simp only at hnumberOf hcomponentOf hcomponents hsize hcount
  -- A leader that has occurred keeps its number; a new one gets the number of components so far.
  by_cases hl : l ∈ leaders
  · have hfound : numberOf[l]? = some (leaders.eraseDups.idxOf l) := by rw [hnumberOf, if_pos hl]
    have hthere : leaders.eraseDups.idxOf l < components.size := by
      rw [hcount]
      exact List.idxOf_lt_length_of_mem (List.mem_eraseDups.2 hl)
    simp only [Builder.add, hfound, if_pos hthere]
    refine ⟨_, rfl, ?_, ?_, ?_⟩
    · intro k
      rw [hnumberOf, eraseDups_concat, if_pos hl]
      by_cases hk : k = l
      · simp [hk, hl]
      · simp [hk]
    · rw [Array.toList_push, hcomponentOf, numbers_concat_of_mem hl]
    · rw [Array.toList_modify, hcomponents, hsize, members_concat_of_mem hl]
  · have hnew : numberOf[l]? = none := by rw [hnumberOf, if_neg hl]
    simp only [Builder.add, hnew]
    refine ⟨_, rfl, ?_, ?_, ?_⟩
    · intro k
      rw [Std.HashMap.getElem?_insert, hnumberOf, eraseDups_concat, if_neg hl, hcount]
      by_cases hk : k = l
      · have hfirst : l ∉ leaders.eraseDups := fun h => hl (List.mem_eraseDups.1 h)
        simp [hk, List.idxOf_append, hfirst]
      · by_cases hmem : k ∈ leaders
        · simp [Ne.symm hk, hmem, List.idxOf_append]
        · simp [Ne.symm hk, hk, hmem]
    · rw [Array.toList_push, hcomponentOf, hcount, numbers_concat_of_notMem hl]
    · rw [Array.toList_push, hcomponents, hsize, members_concat_of_notMem hl]

end Groups

theorem groups_empty : Groups [] empty where
  numberOf := by simp [empty]
  componentOf := rfl
  components := rfl

theorem exists_groups (leaders : List Nat) :
    ∃ b, leaders.foldlM add empty = .ok b ∧ Groups leaders b := by
  induction leaders using List.reverseRecOn with
  | nil => exact ⟨empty, rfl, groups_empty⟩
  | append_singleton leaders l ih =>
      obtain ⟨b, hb, hgroups⟩ := ih
      obtain ⟨b', hb', hgroups'⟩ := hgroups.exists_add l
      refine ⟨b', ?_, hgroups'⟩
      rw [List.foldlM_append, hb]
      show List.foldlM add b [l] = .ok b'
      rw [List.foldlM_cons, hb']
      rfl

end Builder

/-! ## The partition of a list of leaders -/

/-- Grouping by leader numbers the leaders by their first vertices and lists the positions of
each. -/
theorem ofLeaders_eq (leaders : Array Nat) : ofLeaders leaders = .ok (grouped leaders) := by
  obtain ⟨b, hb, hgroups⟩ := Builder.exists_groups leaders.toList
  rw [ofLeaders, hb, grouped, ← hgroups.componentOf, ← hgroups.components]
  rfl

/-- An earlier vertex with the same leader has the number that the leader has. -/
theorem getElem?_numbers {leaders : List Nat} {v l : Nat} (hv : leaders[v]? = some l) :
    (numbers leaders)[v]? = some (leaders.eraseDups.idxOf l) := by
  rw [numbers, List.getElem?_map, hv, Option.map_some]

theorem length_members (leaders : List Nat) :
    (members leaders).length = leaders.eraseDups.length := List.length_map _

/-- Two lists of leaders, given as one list of pairs, that agree on which vertices have equal
leaders give the same numbers and members. -/
theorem numbers_members_congr (pairs : List (Nat × Nat)) :
    (∀ p ∈ pairs, ∀ q ∈ pairs, p.1 = q.1 ↔ p.2 = q.2) →
      numbers (pairs.map (·.1)) = numbers (pairs.map (·.2)) ∧
        members (pairs.map (·.1)) = members (pairs.map (·.2)) := by
  induction pairs using List.reverseRecOn with
  | nil => exact fun _ => ⟨rfl, rfl⟩
  | append_singleton pairs p ih =>
      intro hagree
      obtain ⟨hnumbers, hmembers⟩ := ih fun q hq q' hq' =>
        hagree q (List.mem_append_left _ hq) q' (List.mem_append_left _ hq')
      have hlast : ∀ q ∈ pairs, q.1 = p.1 ↔ q.2 = p.2 := fun q hq =>
        hagree q (List.mem_append_left _ hq) p (List.mem_append_right _ List.mem_cons_self)
      simp only [List.map_append, List.map_singleton]
      by_cases hseen : ∃ q ∈ pairs, q.1 = p.1
      · -- An earlier vertex with the leader of this one has its number on both sides.
        obtain ⟨q, hq, hfst⟩ := hseen
        have hsnd := (hlast q hq).1 hfst
        obtain ⟨v, hv⟩ := List.mem_iff_getElem?.1 hq
        have hvfst : (pairs.map (·.1))[v]? = some p.1 := by simp [hv, hfst]
        have hvsnd : (pairs.map (·.2))[v]? = some p.2 := by simp [hv, hsnd]
        have hleft := getElem?_numbers hvfst
        have hright := getElem?_numbers hvsnd
        have hindex := hleft.symm.trans (hnumbers ▸ hright)
        rw [Option.some.injEq] at hindex
        have hmemfst : p.1 ∈ pairs.map (·.1) := List.mem_map.2 ⟨q, hq, hfst⟩
        have hmemsnd : p.2 ∈ pairs.map (·.2) := List.mem_map.2 ⟨q, hq, hsnd⟩
        rw [numbers_concat_of_mem hmemfst, numbers_concat_of_mem hmemsnd,
          members_concat_of_mem hmemfst, members_concat_of_mem hmemsnd, hindex, hnumbers, hmembers,
          List.length_map, List.length_map]
        exact ⟨rfl, rfl⟩
      · have hfst : p.1 ∉ pairs.map (·.1) := by
          rw [List.mem_map]
          exact hseen
        have hsnd : p.2 ∉ pairs.map (·.2) := by
          rw [List.mem_map]
          rintro ⟨q, hq, heq⟩
          exact hseen ⟨q, hq, (hlast q hq).2 heq⟩
        rw [numbers_concat_of_notMem hfst, numbers_concat_of_notMem hsnd,
          members_concat_of_notMem hfst, members_concat_of_notMem hsnd, ← length_members,
          ← length_members, hnumbers, hmembers, List.length_map, List.length_map]
        exact ⟨rfl, rfl⟩

/-- Only which vertices have equal leaders matters to the partition. -/
theorem grouped_congr {leaders leaders' : Array Nat} (hsize : leaders.size = leaders'.size)
    (hagree : ∀ u < leaders.size, ∀ v < leaders.size,
      leaders[u]? = leaders[v]? ↔ leaders'[u]? = leaders'[v]?) :
    grouped leaders = grouped leaders' := by
  have hlength : leaders.toList.length = leaders'.toList.length := hsize
  have hpairs := numbers_members_congr (leaders.toList.zip leaders'.toList) ?_
  · rw [List.map_fst_zip (Nat.le_of_eq hlength), List.map_snd_zip (Nat.le_of_eq hlength.symm)]
      at hpairs
    rw [grouped, grouped, hpairs.1, hpairs.2]
  · intro p hp q hq
    obtain ⟨u, hu, rfl⟩ := List.mem_iff_getElem.1 hp
    obtain ⟨v, hv, rfl⟩ := List.mem_iff_getElem.1 hq
    rw [List.length_zip, Array.length_toList, Array.length_toList] at hu hv
    have hu' : u < leaders.size := by omega
    have hv' : v < leaders.size := by omega
    have h := hagree u hu' v hv'
    simpa [hu', hv', hsize ▸ hu', hsize ▸ hv'] using h

end Partition

/-! ## Sizes -/

/-- The values of a hash map are those of its entries. -/
theorem values_eq_map_toList (m : Std.HashMap Nat Nat) : m.values = m.toList.map (·.2) := by
  show m.inner.1.values = (Std.DHashMap.Raw.Const.toList m.inner.1).map (·.2)
  rw [Std.DHashMap.Internal.Raw.values_eq_values_toListModel,
    Std.DHashMap.Internal.Raw.Const.toList_eq_toListModel_map, Std.Internal.List.values_eq_map,
    List.map_map]
  rfl

/-- Each leader is counted as often as it occurs. -/
theorem getElem?_leaderCounts (leaders : Array Nat) (l : Nat) :
    (leaderCounts leaders)[l]? =
      if l ∈ leaders.toList then some (leaders.toList.count l) else none := by
  rw [leaderCounts, ← Array.foldl_toList]
  -- On the last vertex, which raises the count of its own leader alone.
  induction leaders.toList using List.reverseRecOn with
  | nil => simp
  | append_singleton leaders k ih =>
      rw [List.foldl_concat, Std.HashMap.getElem?_alter]
      by_cases hkl : k = l
      · subst hkl
        rw [ih]
        by_cases hk : k ∈ leaders
        · simp [hk]
        · simp [hk, List.count_eq_zero_of_not_mem hk]
      · simp [hkl, ih, Ne.symm hkl]

/-- The counts are those of the leaders by first vertices, in some order. -/
theorem values_leaderCounts_perm (leaders : Array Nat) :
    (leaderCounts leaders).values.Perm
      (leaders.toList.eraseDups.map fun l => leaders.toList.count l) := by
  have hentries : (leaderCounts leaders).toList.Perm
      (leaders.toList.eraseDups.map fun l => (l, leaders.toList.count l)) := by
    rw [List.perm_ext_iff_of_nodup]
    · rintro ⟨l, n⟩
      rw [Std.HashMap.mem_toList_iff_getElem?_eq_some, getElem?_leaderCounts]
      by_cases hl : l ∈ leaders.toList
      · simp [Array.mem_toList_iff.1 hl]
      · simp [mt Array.mem_toList_iff.2 hl]
    · refine Std.HashMap.distinct_keys_toList.imp ?_
      rintro p q hne rfl
      simp at hne
    · exact (nodup_eraseDups _).map fun l m h => (Prod.mk.inj h).1
  have hcounts := hentries.map (·.2)
  rw [List.map_map] at hcounts
  rw [values_eq_map_toList]
  exact hcounts

/-- Sorting by decreasing size forgets the order before. -/
theorem mergeSort_ge_eq_of_perm {sizes sizes' : List Nat} (h : sizes.Perm sizes') :
    sizes.mergeSort (· ≥ ·) = sizes'.mergeSort (· ≥ ·) := by
  have hsorted : ∀ s : List Nat, (s.mergeSort (· ≥ ·)).Pairwise fun a b => decide (a ≥ b) =
      true := by
    apply List.pairwise_mergeSort
    · intro a b c hab hbc
      simp only [ge_iff_le, decide_eq_true_eq] at hab hbc ⊢
      omega
    · intro a b
      simp only [ge_iff_le, Bool.or_eq_true, decide_eq_true_eq]
      omega
  refine List.Perm.eq_of_pairwise ?_ (hsorted sizes) (hsorted sizes') ?_
  · intro a b _ _ hab hba
    simp only [ge_iff_le, decide_eq_true_eq] at hab hba
    omega
  · exact (List.mergeSort_perm _ _).trans (h.trans (List.mergeSort_perm _ _).symm)

/-- The sizes counted by leader are the sizes of the components, largest first. -/
theorem componentSizes_eq (leaders : Array Nat) :
    componentSizes leaders =
      ((Partition.grouped leaders).components.toList.map Array.size).mergeSort (· ≥ ·) := by
  have hsizes : (Partition.grouped leaders).components.toList.map Array.size =
      leaders.toList.eraseDups.map fun l => leaders.toList.count l := by
    rw [Partition.grouped, Partition.members, List.map_map]
    apply List.map_congr_left
    intro l _
    exact List.length_idxsOf
  rw [componentSizes, hsizes]
  exact mergeSort_ge_eq_of_perm (values_leaderCounts_perm leaders)

end StrongComponents
