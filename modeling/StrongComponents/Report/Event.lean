import StrongComponents.Report.Basic

/-!
# Events of a computation

A computation tells what it is doing by events. An event has two JSON forms: the tagged
form names its constructor, and the streamed form, of which a line is printed for each
event, uses lower-case names.
-/

set_option autoImplicit false

namespace StrongComponents

/-- The parts of a computation. -/
inductive Phase where
  | components
  | aggregation
deriving DecidableEq

/-- The name of a phase. -/
def Phase.name : Phase → String
  | components => "scc"
  | aggregation => "aggregate"

/-- Steps of a computation. -/
inductive Event where
  | phaseStarted (name : String)
  | phaseFinished (name : String)
  | graphLoaded (vertices edges : Nat)
  | componentsComputed (vertices edges components cyclicComponents : Nat)
  | componentFound (leader : String) (size : Nat) (cyclic : Bool)
  | finished (stats : Stats)
deriving DecidableEq

namespace Event

/-- The form that names the constructor. -/
def tagged : Event → Json
  | phaseStarted name => .object [("type", .ofString "PhaseStarted"), ("name", .ofString name)]
  | phaseFinished name => .object [("type", .ofString "PhaseFinished"), ("name", .ofString name)]
  | graphLoaded vertices edges =>
      .object [("type", .ofString "GraphLoaded"), ("vertices", .ofNat vertices),
        ("edges", .ofNat edges)]
  | componentsComputed vertices edges components cyclicComponents =>
      .object
        [("type", .ofString "SccComputed"), ("nodes", .ofNat vertices), ("edges", .ofNat edges),
         ("components", .ofNat components), ("cyclic_components", .ofNat cyclicComponents)]
  | componentFound leader size cyclic =>
      .object
        [("type", .ofString "ComponentFound"), ("leader", .ofString leader), ("size", .ofNat size),
         ("cyclic", .ofBool cyclic)]
  | finished stats => .object [("type", .ofString "Finished"), ("stats", stats.toJson)]

/-- The text of the tagged form. -/
def taggedText (e : Event) : String := e.tagged.text

/-- The form that is streamed, before its members are sorted. -/
def message : Event → Json
  | phaseStarted name => .object [("type", .ofString "phase_started"), ("name", .ofString name)]
  | phaseFinished name => .object [("type", .ofString "phase_finished"), ("name", .ofString name)]
  | graphLoaded vertices edges =>
      .object [("type", .ofString "graph_loaded"), ("vertices", .ofNat vertices),
        ("edges", .ofNat edges)]
  | componentsComputed vertices edges components cyclicComponents =>
      .object
        [("type", .ofString "scc_computed"), ("nodes", .ofNat vertices), ("edges", .ofNat edges),
         ("components", .ofNat components), ("cyclic_components", .ofNat cyclicComponents)]
  | componentFound leader size cyclic =>
      .object
        [("type", .ofString "component_found"), ("leader", .ofString leader), ("size", .ofNat size),
         ("cyclic", .ofBool cyclic)]
  | finished stats => .object [("type", .ofString "finished"), ("stats", stats.toJson)]

/-- The line printed for an event: the streamed form with sorted members. -/
def line (e : Event) : String := e.message.canonical.text ++ "\n"

/-- What is printed for a list of events. -/
def stream (events : List Event) : String := String.join (events.map line)

end Event

end StrongComponents
