import StrongComponents.Graph.Reachability

/-!
# Walks inside a set of vertices

`Graph.ReachesWithin` is reachability along walks all of whose vertices have a given property. A
search that skips explored vertices follows such walks. The lemmas say how these walks are cut,
joined and turned round, and `ReachesWithin.avoid` that a walk which ends outside a set it cannot
leave never enters that set. Walks between two graphs are compared by their edges, and mutual
reachability does not even depend on which way round the edges go (`mutuallyReachable_congr`).
-/

set_option autoImplicit false

namespace StrongComponents.Graph

/-- There is a walk from `u` all of whose vertices, both ends included, satisfy `p`. -/
inductive ReachesWithin (g : Graph) (p : Nat → Prop) (u : Nat) : Nat → Prop where
  | refl : p u → ReachesWithin g p u u
  | tail {v w : Nat} : ReachesWithin g p u v → g.Edge v w → p w → ReachesWithin g p u w

variable {g : Graph} {p q : Nat → Prop} {u v w : Nat}

namespace ReachesWithin

theorem source (h : g.ReachesWithin p u v) : p u := by
  induction h with
  | refl hu => exact hu
  | tail _ _ _ ih => exact ih

theorem reaches (h : g.ReachesWithin p u v) : g.Reaches u v := by
  induction h with
  | refl _ => exact .refl
  | tail _ he _ ih => exact .tail ih he

theorem mono (hpq : ∀ x, p x → q x) (h : g.ReachesWithin p u v) : g.ReachesWithin q u v := by
  induction h with
  | refl hu => exact .refl (hpq _ hu)
  | tail _ he hw ih => exact .tail ih he (hpq _ hw)

theorem trans (huv : g.ReachesWithin p u v) (hvw : g.ReachesWithin p v w) :
    g.ReachesWithin p u w := by
  induction hvw with
  | refl _ => exact huv
  | tail _ he hw ih => exact .tail ih he hw

/-- A walk can be extended at its front. -/
theorem head (hu : p u) (he : g.Edge u v) (h : g.ReachesWithin p v w) : g.ReachesWithin p u w :=
  (ReachesWithin.tail (.refl hu) he h.source).trans h

/-- A walk that ends outside a set which no edge leaves stays outside that set all along. -/
theorem avoid (hclosed : ∀ x y, q x → g.Edge x y → p y → q y) (h : g.ReachesWithin p u v) :
    ¬ q v → g.ReachesWithin (fun x => p x ∧ ¬ q x) u v := by
  induction h with
  | refl hu => exact fun hq => .refl ⟨hu, hq⟩
  | @tail v w _ he hw ih =>
      intro hq
      -- Were the vertex before the end in the set, the last edge would have kept the walk in it.
      have hv : ¬ q v := fun hqv => hq (hclosed v w hqv he hw)
      exact .tail (ih hv) he ⟨hw, hq⟩

/-- Turning every edge round turns the walks round. -/
theorem reverse {r : Graph} (hr : ∀ x y, r.Edge x y → g.Edge y x) (h : r.ReachesWithin p u v) :
    g.ReachesWithin p v u := by
  induction h with
  | refl hu => exact .refl hu
  | tail _ he hw ih => exact head hw (hr _ _ he) ih

end ReachesWithin

/-- A graph with more edges has all the walks. -/
theorem Reaches.mono {h : Graph} (hedges : ∀ x y, g.Edge x y → h.Edge x y) (huv : g.Reaches u v) :
    h.Reaches u v := by
  induction huv with
  | refl => exact .refl
  | tail _ he ih => exact .tail ih (hedges _ _ he)

/-- Where the edges are turned round, so are the walks. -/
theorem Reaches.reverse {r : Graph} (hr : ∀ x y, g.Edge x y → r.Edge y x) (huv : g.Reaches u v) :
    r.Reaches v u := by
  induction huv with
  | refl => exact .refl
  | tail _ he ih => exact (hr _ _ he).reaches.trans ih

/-- Mutual reachability depends on the edge relation alone, and not on the direction of all edges
together. -/
theorem mutuallyReachable_congr {h : Graph}
    (hedges : (∀ x y, h.Edge x y ↔ g.Edge x y) ∨ ∀ x y, h.Edge x y ↔ g.Edge y x) :
    h.MutuallyReachable u v ↔ g.MutuallyReachable u v := by
  rcases hedges with hsame | hturned
  · constructor
    · rintro ⟨huv, hvu⟩
      exact ⟨huv.mono fun x y => (hsame x y).1, hvu.mono fun x y => (hsame x y).1⟩
    · rintro ⟨huv, hvu⟩
      exact ⟨huv.mono fun x y => (hsame x y).2, hvu.mono fun x y => (hsame x y).2⟩
  · -- Turned round, the two walks between the vertices change places.
    constructor
    · rintro ⟨huv, hvu⟩
      exact ⟨hvu.reverse fun x y => (hturned x y).1, huv.reverse fun x y => (hturned x y).1⟩
    · rintro ⟨huv, hvu⟩
      exact ⟨hvu.reverse fun x y => (hturned y x).2, huv.reverse fun x y => (hturned y x).2⟩

/-- Between mutually reachable vertices every walk stays in their class. -/
theorem Reaches.within_class (huv : g.Reaches u v) :
    g.Reaches v u → g.ReachesWithin (g.MutuallyReachable u) u v := by
  induction huv with
  | refl => exact fun _ => .refl (.refl g u)
  | @tail v w huv he ih =>
      intro hwu
      -- The way back from `w` is also one from `v`, over the last edge.
      have hvu : g.Reaches v u := he.reaches.trans hwu
      exact .tail (ih hvu) he ⟨huv.tail he, hwu⟩

end StrongComponents.Graph
