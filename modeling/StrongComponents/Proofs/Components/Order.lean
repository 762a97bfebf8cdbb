import StrongComponents.Components.Order
import Mathlib.Data.List.Induction
import Mathlib.Data.List.Nodup
import Mathlib.Data.List.Perm.Subperm

/-!
# Orders of the vertices

`checkOrder` accepts exactly the permutations of `0, …, n - 1` (`checkOrder_eq_ok_iff`), although it
looks for no missing vertex: a list of the right length that holds vertices only, none of them
twice, has no room to miss one (`Listing.perm_range`). What it refuses it refuses for the length or
for the first entry that cannot stand where it stands (`checkOrder_outcome`).

While the entries are checked every vertex has a mark, set iff the vertex was listed (`Marks`).
So no look-up of a mark fails.
-/

set_option autoImplicit false

namespace StrongComponents

/-- The list holds vertices only, none of them twice. -/
structure Listing (n : Nat) (listed : List Nat) : Prop where
  lt : ∀ v ∈ listed, v < n
  nodup : listed.Nodup

/-- Why an entry cannot follow the listed ones, in words. -/
inductive Barred (n : Nat) (listed : List Nat) (v : Nat) : String → Prop where
  | outOfRange (h : n ≤ v) : Barred n listed v s!"vertex {v} out of range"
  | repeated (h : v ∈ listed) : Barred n listed v s!"vertex {v} listed twice"

/-- Why a list is no order of `n` vertices, in words: its length, or else the first entry that
cannot follow those before it. -/
inductive Refused (n : Nat) (order : List Nat) : String → Prop where
  | length (h : order.length ≠ n) : Refused n order s!"got {order.length} entries"
  | entry {before after : List Nat} {v : Nat} {reason : String} (hlength : order.length = n)
      (hsplit : order = before ++ v :: after) (hbefore : Listing n before)
      (hbarred : Barred n before v reason) :
      Refused n order reason

variable {n : Nat} {listed order : List Nat} {seen : Array Bool} {v : Nat}

/-! ## Listings -/

namespace Listing

theorem nil : Listing n [] := ⟨by simp, List.nodup_nil⟩

theorem concat_iff : Listing n (listed ++ [v]) ↔ Listing n listed ∧ v < n ∧ v ∉ listed := by
  constructor
  · rintro ⟨hlt, hnodup⟩
    rw [List.nodup_append] at hnodup
    refine ⟨⟨fun u hu => hlt u (List.mem_append_left _ hu), hnodup.1⟩, hlt v (by simp), ?_⟩
    exact fun hv => hnodup.2.2 v hv v List.mem_cons_self rfl
  · rintro ⟨⟨hlt, hnodup⟩, hv, hnew⟩
    constructor
    · intro u hu
      rcases List.mem_append.1 hu with hu | hu
      · exact hlt u hu
      · exact List.mem_singleton.1 hu ▸ hv
    · rw [List.nodup_append]
      refine ⟨hnodup, List.nodup_singleton v, ?_⟩
      rintro u hu w hw rfl
      exact hnew (List.mem_singleton.1 hw ▸ hu)

/-- A list is a listing, or it has a first entry that cannot follow those before it. -/
theorem or_exists_barred (n : Nat) (order : List Nat) :
    Listing n order ∨
      ∃ before v after reason, order = before ++ v :: after ∧ Listing n before ∧
        Barred n before v reason := by
  -- By the last entry: the first entry that is barred stays the first one, whatever follows.
  induction order using List.reverseRecOn with
  | nil => exact .inl nil
  | append_singleton listed v ih =>
      rcases ih with hlisted | ⟨before, w, after, reason, rfl, hbefore, hbarred⟩
      · rcases Nat.lt_or_ge v n with hlt | hge
        · by_cases hv : v ∈ listed
          · exact .inr ⟨listed, v, [], _, rfl, hlisted, .repeated hv⟩
          · exact .inl (concat_iff.2 ⟨hlisted, hlt, hv⟩)
        · exact .inr ⟨listed, v, [], _, rfl, hlisted, .outOfRange hge⟩
      · exact .inr ⟨before, w, after ++ [v], reason, by simp, hbefore, hbarred⟩

/-- A listing of `n` entries has no room to miss a vertex. -/
theorem perm_range (h : Listing n order) (hlength : order.length = n) :
    order.Perm (List.range n) := by
  have hsub : order.Subperm (List.range n) :=
    List.subperm_of_subset h.nodup fun v hv => List.mem_range.2 (h.lt v hv)
  exact hsub.perm_of_length_le (by simp [hlength])

end Listing

theorem perm_range_iff : order.Perm (List.range n) ↔ order.length = n ∧ Listing n order := by
  constructor
  · intro hperm
    refine ⟨by simpa using hperm.length_eq, fun v hv => List.mem_range.1 (hperm.mem_iff.1 hv), ?_⟩
    exact hperm.nodup_iff.2 List.nodup_range
  · rintro ⟨hlength, hlisting⟩
    exact hlisting.perm_range hlength

/-! ## Marks -/

/-- Every vertex has a mark, which is set iff the vertex is listed. -/
def Marks (n : Nat) (listed : List Nat) (seen : Array Bool) : Prop :=
  ∀ v < n, seen[v]? = some (decide (v ∈ listed))

theorem marks_replicate (n : Nat) : Marks n [] (Array.replicate n false) := by
  intro v hv
  simp [hv]

theorem Marks.fetch_eq (h : Marks n listed seen) (hv : v < n) :
    fetch seen v = .ok (decide (v ∈ listed)) :=
  fetch_eq_ok_iff.2 (h v hv)

theorem Marks.mark (h : Marks n listed seen) (hv : v < n) :
    Marks n (listed ++ [v]) (seen.setIfInBounds v true) := by
  obtain ⟨hbound, -⟩ := Array.getElem?_eq_some_iff.1 (h v hv)
  intro u hu
  rw [Array.getElem?_setIfInBounds]
  by_cases huv : v = u
  · subst huv
    simp [hbound]
  · simp [huv, Ne.symm huv, h u hu]

/-! ## The check -/

/-- An entry that can follow the listed ones is marked and left behind. -/
theorem checkEntries_of_new (h : Marks n listed seen) (hv : v < n) (hnew : v ∉ listed)
    (rest : List Nat) :
    checkEntries n seen (v :: rest) = checkEntries n (seen.setIfInBounds v true) rest := by
  rw [checkEntries, if_neg (Nat.not_le.2 hv), h.fetch_eq hv, decide_eq_false hnew]

/-- An entry that cannot follow the listed ones ends the check. -/
theorem checkEntries_of_barred {reason : String} (h : Marks n listed seen)
    (hbarred : Barred n listed v reason) (rest : List Nat) (hlisted : Listing n listed) :
    checkEntries n seen (v :: rest) = .error (.invalidOrder n reason) := by
  cases hbarred with
  | outOfRange hge =>
      rw [checkEntries, if_pos hge]
      rfl
  | repeated hv =>
      have hlt := hlisted.lt v hv
      rw [checkEntries, if_neg (Nat.not_le.2 hlt), h.fetch_eq hlt, decide_eq_true hv]
      rfl

/-- The check goes through the entries of a listing and has their marks set behind them. -/
theorem exists_checkEntries_append (before : List Nat) :
    ∀ {listed : List Nat} {seen : Array Bool}, Marks n listed seen → Listing n (listed ++ before) →
      ∃ seen', Marks n (listed ++ before) seen' ∧
        ∀ rest, checkEntries n seen (before ++ rest) = checkEntries n seen' rest := by
  induction before with
  | nil =>
      intro listed seen hseen _
      exact ⟨seen, by rwa [List.append_nil], fun _ => rfl⟩
  | cons v before ih =>
      intro listed seen hseen hlisting
      rw [List.append_cons] at hlisting
      -- The front of a listing is one too, so `v` is a vertex that was not listed before.
      have hv : v < n ∧ v ∉ listed := by
        have hfront : Listing n (listed ++ [v]) :=
          ⟨fun u hu => hlisting.lt u (List.mem_append_left _ hu),
            (List.nodup_append.1 hlisting.nodup).1⟩
        exact (Listing.concat_iff.1 hfront).2
      obtain ⟨seen', hseen', hrest⟩ := ih (hseen.mark hv.1) hlisting
      refine ⟨seen', by rwa [List.append_cons], ?_⟩
      intro rest
      rw [List.cons_append, checkEntries_of_new hseen hv.1 hv.2, hrest]

theorem checkOrder_of_listing (hlength : order.length = n) (h : Listing n order) :
    checkOrder n order = .ok () := by
  obtain ⟨seen, -, hrest⟩ := exists_checkEntries_append order (marks_replicate n) h
  rw [checkOrder, if_pos hlength, ← List.append_nil order, hrest, checkEntries]

theorem checkOrder_of_refused {reason : String} (h : Refused n order reason) :
    checkOrder n order = .error (.invalidOrder n reason) := by
  cases h with
  | length h =>
      rw [checkOrder, if_neg h]
      rfl
  | @entry before after v reason hlength hsplit hbefore hbarred =>
      obtain ⟨seen, hseen, hrest⟩ := exists_checkEntries_append before (marks_replicate n) hbefore
      rw [checkOrder, if_pos hlength, hsplit, hrest]
      exact checkEntries_of_barred hseen hbarred after hbefore

/-- Every list is an order or is refused. -/
theorem perm_range_or_refused (n : Nat) (order : List Nat) :
    order.Perm (List.range n) ∨ ∃ reason, Refused n order reason := by
  by_cases hlength : order.length = n
  · rcases Listing.or_exists_barred n order with hlisting |
      ⟨before, v, after, reason, hsplit, hbefore, hbarred⟩
    · exact .inl (hlisting.perm_range hlength)
    · exact .inr ⟨reason, .entry hlength hsplit hbefore hbarred⟩
  · exact .inr ⟨_, .length hlength⟩

/-- The accepted lists are the permutations of the vertices. -/
theorem checkOrder_eq_ok_iff {n : Nat} {order : List Nat} :
    checkOrder n order = .ok () ↔ order.Perm (List.range n) := by
  constructor
  · intro haccepted
    refine (perm_range_or_refused n order).resolve_right ?_
    rintro ⟨reason, hrefused⟩
    rw [checkOrder_of_refused hrefused] at haccepted
    cases haccepted
  · intro hperm
    obtain ⟨hlength, hlisting⟩ := perm_range_iff.1 hperm
    exact checkOrder_of_listing hlength hlisting

theorem checkOrder_eq_error_iff {cause : GraphError} :
    checkOrder n order = .error cause ↔ ∃ reason, Refused n order reason ∧
      cause = .invalidOrder n reason := by
  constructor
  · intro herror
    rcases perm_range_or_refused n order with hperm | ⟨reason, hrefused⟩
    · rw [checkOrder_eq_ok_iff.2 hperm] at herror
      cases herror
    · rw [checkOrder_of_refused hrefused] at herror
      exact ⟨reason, hrefused, (Except.error.inj herror).symm⟩
  · rintro ⟨reason, hrefused, rfl⟩
    exact checkOrder_of_refused hrefused

/-- In a permutation of the vertices each of them occurs once and nothing else does. -/
theorem perm_range_iff_count :
    order.Perm (List.range n) ↔ (∀ v < n, order.count v = 1) ∧ ∀ v ∈ order, v < n := by
  constructor
  · intro hperm
    refine ⟨fun v hv => ?_, fun v hv => List.mem_range.1 (hperm.mem_iff.1 hv)⟩
    rw [hperm.count_eq, List.count_eq_one_of_mem List.nodup_range (List.mem_range.2 hv)]
  · rintro ⟨honce, hlt⟩
    rw [List.perm_iff_count]
    intro v
    rcases Nat.lt_or_ge v n with hv | hv
    · rw [honce v hv, List.count_eq_one_of_mem List.nodup_range (List.mem_range.2 hv)]
    · -- What is no vertex occurs on neither side.
      have hnone : v ∉ order := fun hmem => Nat.not_lt.2 hv (hlt v hmem)
      rw [List.count_eq_zero_of_not_mem hnone, List.count_eq_zero_of_not_mem (by simpa using hv)]

/-- The check accepts a list iff it is a permutation of the `n` vertices, so that each of them
occurs once and nothing else does. What it refuses it refuses as no order of `n` vertices: for its
length if that is not `n`, else for the first entry that is no vertex or occurs before. No mark is
ever looked up that is not there. -/
theorem checkOrder_outcome (n : Nat) (order : List Nat) :
    (checkOrder n order = .ok () ↔ order.Perm (List.range n)) ∧
      (order.Perm (List.range n) ↔ (∀ v < n, order.count v = 1) ∧ ∀ v ∈ order, v < n) ∧
      (∀ cause, checkOrder n order = .error cause ↔ ∃ reason, Refused n order reason ∧
        cause = .invalidOrder n reason) ∧
      ∀ size index, checkOrder n order ≠ .error (.indexOutOfBounds size index) := by
  refine ⟨checkOrder_eq_ok_iff, perm_range_iff_count, fun _ => checkOrder_eq_error_iff, ?_⟩
  intro size index herror
  obtain ⟨reason, -, hcause⟩ := checkOrder_eq_error_iff.1 herror
  cases hcause

end StrongComponents
