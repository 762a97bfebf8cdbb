import StrongComponents.Traversal.Basic

/-!
# Stack reserved for nested calls

A depth-limited traversal asks for its whole stack before it starts. The request grows with the
depth limit and stays at the largest 64-bit count when it would pass it. Whether it is granted is up
to the machine, and nothing here depends on how a machine decides.
-/

set_option autoImplicit false

namespace StrongComponents

namespace Stack

/-- Largest count that a 64-bit word holds. -/
def largestWord : Nat := 0xFFFFFFFFFFFFFFFF

/-- Bytes set aside for each nested vertex. -/
def bytesPerVertex : Nat := 1024

/-- Bytes set aside besides. -/
def baseBytes : Nat := 0x100000

/-- Bytes requested for a depth limit. -/
def request (maxDepth : Nat) : Nat :=
  min largestWord (min largestWord (maxDepth * bytesPerVertex) + baseBytes)

/-- How a machine answers requests for stack: with the reason to refuse so many bytes, or with
nothing if it grants them. -/
abbrev Supply := Nat → Option String

/-- Size of an address space of 47 bits. -/
def addressSpace : Nat := 0x800000000000

/-- Bytes of the guard page that is added to every stack. -/
def guardBytes : Nat := 4096

/-- The supply of a machine that grants whatever fits into 47 bits. A request that leaves no
room for the guard page in a 64-bit count makes no sense to it, and any other could be
granted on a larger machine. -/
def ofAddressSpace : Supply := fun bytes =>
  if bytes < addressSpace then none
  else if largestWord < bytes + guardBytes then some "Invalid argument (os error 22)"
  else some "Resource temporarily unavailable (os error 11)"

end Stack

namespace Strategy

/-- Reserves what the strategy needs before anything else happens. -/
def reserve (supply : Stack.Supply) : Strategy → Except GraphError Unit
  | iterative => .ok ()
  | recursive maxDepth =>
    match supply (Stack.request maxDepth) with
    | none => .ok ()
    | some reason => .error (.stackUnavailable (Stack.request maxDepth) reason)

end Strategy

end StrongComponents
