/-!
# Failures of graph operations

Every operation of the library that can fail on a graph fails with a `GraphError`. The wording of an
error is fixed in one place, `GraphError.message`.
-/

set_option autoImplicit false

namespace StrongComponents

/-- Causes of failure: a malformed description of a graph, a traversal that may not go on, or a
look-up past the end of a list. -/
inductive GraphError where
  /-- An edge of a described graph leads to a label that names no vertex. -/
  | danglingEdge (source target : String)
  /-- A label is declared twice. -/
  | duplicateVertex (label : String)
  /-- A vertex number is not below the number of vertices. -/
  | vertexOutOfRange (vertex vertexCount : Nat)
  /-- A depth-limited traversal stands `limit` vertices deep and would have to enter `vertex`. -/
  | depthExceeded (limit vertex : Nat)
  /-- The stack for a depth-limited traversal cannot be reserved. -/
  | stackUnavailable (bytes : Nat) (reason : String)
  /-- A list meant to enumerate all `expected` vertices does not. -/
  | invalidOrder (expected : Nat) (reason : String)
  /-- Position `index` was looked up in a list of `size` entries. -/
  | indexOutOfBounds (size index : Nat)
deriving DecidableEq

namespace GraphError

/-- The wording of each cause. -/
def message : GraphError → String
  | danglingEdge source target =>
      s!"dangling edge {source} -> {target}: {target} is not a vertex of the graph"
  | duplicateVertex label => s!"duplicate vertex: {label}"
  | vertexOutOfRange vertex vertexCount =>
      s!"vertex {vertex} out of range for a graph with {vertexCount} vertices"
  | depthExceeded limit vertex =>
      s!"traversal depth exceeded: limit {limit} reached while descending into vertex {vertex}"
  | stackUnavailable bytes reason =>
      s!"cannot reserve a {bytes}-byte stack for recursive traversal: {reason}"
  | invalidOrder expected reason =>
      s!"invalid traversal order ({reason}); expected a permutation of {expected} vertices"
  | indexOutOfBounds size index =>
      s!"index out of bounds: the len is {size} but the index is {index}"

end GraphError

/-- The entry at position `i`, or the failure that names the length and the position. -/
def fetch {α : Type} (xs : Array α) (i : Nat) : Except GraphError α :=
  match xs[i]? with
  | some a => .ok a
  | none => .error (.indexOutOfBounds xs.size i)

theorem fetch_eq_ok_iff {α : Type} {xs : Array α} {i : Nat} {a : α} :
    fetch xs i = .ok a ↔ xs[i]? = some a := by
  unfold fetch
  split <;> simp_all

theorem fetch_eq_error_iff {α : Type} {xs : Array α} {i : Nat} {e : GraphError} :
    fetch xs i = .error e ↔ xs.size ≤ i ∧ e = .indexOutOfBounds xs.size i := by
  unfold fetch
  split
  · rename_i a h
    obtain ⟨hi, -⟩ := Array.getElem?_eq_some_iff.1 h
    simp [Nat.not_le.2 hi]
  · rename_i h
    simp [Array.getElem?_eq_none_iff.1 h, eq_comm]

/-- Two operations in a row succeed iff both do, the second on what the first gives. -/
theorem bind_eq_ok_iff {ε α β : Type} {x : Except ε α} {f : α → Except ε β} {b : β} :
    x >>= f = .ok b ↔ ∃ a, x = .ok a ∧ f a = .ok b := by
  cases x with
  | error e =>
      show Except.error e = Except.ok b ↔ _
      simp
  | ok a =>
      show f a = .ok b ↔ _
      simp

/-- Changing a result succeeds iff there is one. -/
theorem map_eq_ok_iff {ε α β : Type} {f : α → β} {x : Except ε α} {b : β} :
    x.map f = .ok b ↔ ∃ a, x = .ok a ∧ f a = b := by
  cases x <;> simp [Except.map]

/-- Another error makes no difference to a success. -/
theorem mapError_eq_ok_iff {ε ε' α : Type} {f : ε → ε'} {x : Except ε α} {a : α} :
    x.mapError f = .ok a ↔ x = .ok a := by
  cases x with
  | error e => exact ⟨nofun, nofun⟩
  | ok b =>
      show Except.ok b = Except.ok a ↔ _
      simp

/-- An operation on each entry of a list succeeds iff it succeeds on every entry, with these
results. -/
theorem mapM_eq_ok_iff {ε α β : Type} {f : α → Except ε β} {xs : List α} {ys : List β} :
    xs.mapM f = .ok ys ↔ xs.map f = ys.map .ok := by
  induction xs generalizing ys with
  | nil =>
      show Except.ok [] = Except.ok ys ↔ _
      cases ys <;> simp
  | cons x xs ih =>
      rw [List.mapM_cons, bind_eq_ok_iff]
      simp only [bind_eq_ok_iff, ih]
      show (∃ y, f x = .ok y ∧ ∃ rest, xs.map f = rest.map .ok ∧
        Except.ok (y :: rest) = Except.ok ys) ↔ _
      cases ys <;> simp

/-- An operation that succeeds on every entry of a list has a list of results. -/
theorem exists_map_eq_ok {ε α β : Type} {f : α → Except ε β} {xs : List α}
    (h : ∀ x ∈ xs, ∃ y, f x = .ok y) : ∃ ys : List β, xs.map f = ys.map .ok := by
  induction xs with
  | nil => exact ⟨[], rfl⟩
  | cons x xs ih =>
      obtain ⟨y, hy⟩ := h x List.mem_cons_self
      obtain ⟨ys, hys⟩ := ih fun x' hx' => h x' (List.mem_cons_of_mem x hx')
      exact ⟨y :: ys, by rw [List.map_cons, List.map_cons, hy, hys]⟩

end StrongComponents
