import StrongComponents.Json.Printer
import Std.Data.TreeMap

/-!
# Reports on the components of a labelled graph

A report lists the components by decreasing size, names the leader of every vertex and counts what
it lists. It is shown as a text of its component sizes and written as a JSON document.
-/

set_option autoImplicit false

namespace StrongComponents

/-- Counts of a report. -/
structure Stats where
  vertices : Nat
  edges : Nat
  components : Nat
  singletonComponents : Nat
  cyclicComponents : Nat
  largestComponent : Nat
deriving DecidableEq

namespace Stats

/-- The counts as a JSON object. -/
def toJson (s : Stats) : Json :=
  .object
    [("vertices", .ofNat s.vertices), ("edges", .ofNat s.edges),
      ("components", .ofNat s.components),
     ("singleton_components", .ofNat s.singletonComponents),
     ("cyclic_components", .ofNat s.cyclicComponents),
     ("largest_component", .ofNat s.largestComponent)]

end Stats

/-- The components of a labelled graph: their sizes, largest first, their members in the same order,
and the leader of each vertex. Vertices are given by the texts of their labels. -/
structure Report where
  stats : Stats
  sizes : List Nat
  components : List (List String)
  leaders : Std.TreeMap String String

namespace Report

/-- The report as a JSON object. -/
def toJson (r : Report) : Json :=
  .object
    [("stats", r.stats.toJson),
     ("sizes", .array (r.sizes.map .ofNat)),
     ("components", .array (r.components.map fun members => .array (members.map .ofString))),
     ("leaders", .object (r.leaders.toList.map fun entry => (entry.1, .ofString entry.2)))]

/-- The text of the report as a document. -/
def document (r : Report) : String := r.toJson.prettyText

/-- A line of a text. -/
def line (s : String) : String := s ++ "\n"

/-- The report for a reader. At most `top` sizes are listed, but all are counted. -/
def render (r : Report) (top : Option Nat) : String :=
  let count := r.sizes.length
  let shown := min (top.getD count) count
  line s!"Vertices in graph: {r.stats.vertices}" ++
    line s!"Number of SCCs: {count}" ++
    line "SCCs in order of decreasing size:" ++
    String.join ((r.sizes.take shown).map fun size => line s!"{size}") ++
    if shown < count then line s!"... ({count - shown} more)" else ""

end Report

end StrongComponents
