import StrongComponents.Graph.Error

/-!
# Orders in which a pass takes the vertices

An order is a list that holds each of the vertices `0, …, n - 1` once. `checkOrder` finds the
first reason why a list is none.
-/

set_option autoImplicit false

namespace StrongComponents

/-- Why a list does not enumerate the vertices. -/
inductive OrderDefect where
  | wrongLength (length : Nat)
  | outOfRange (vertex : Nat)
  | repeated (vertex : Nat)
deriving DecidableEq

/-- The wording of each defect. -/
def OrderDefect.message : OrderDefect → String
  | wrongLength length => s!"got {length} entries"
  | outOfRange vertex => s!"vertex {vertex} out of range"
  | repeated vertex => s!"vertex {vertex} listed twice"

/-- Checks the entries one by one, where `seen` marks what was listed before. The mark of an entry
is looked up only after the entry was found to be a vertex. -/
def checkEntries (n : Nat) (seen : Array Bool) : List Nat → Except GraphError Unit
  | [] => .ok ()
  | v :: rest =>
    if n ≤ v then .error (.invalidOrder n (OrderDefect.outOfRange v).message)
    else
      match fetch seen v with
      | .error cause => .error cause
      | .ok true => .error (.invalidOrder n (OrderDefect.repeated v).message)
      | .ok false => checkEntries n (seen.setIfInBounds v true) rest

/-- Accepts the lists that enumerate `n` vertices. The length is checked before the entries. -/
def checkOrder (n : Nat) (order : List Nat) : Except GraphError Unit :=
  if order.length = n then checkEntries n (Array.replicate n false) order
  else .error (.invalidOrder n (OrderDefect.wrongLength order.length).message)

end StrongComponents
