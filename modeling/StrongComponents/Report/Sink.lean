import StrongComponents.Report.Compute

/-!
# Computations that somebody listens to

`LabeledGraph.compute` gives the events of a computation as a list. Here they are sent one by one
while the computation goes on. There may be nobody to receive them, or the listener may have left;
what becomes of an event is never looked at.
-/

set_option autoImplicit false

namespace StrongComponents

/-- Where events are sent to. -/
inductive Sink where
  /-- Nobody listens. -/
  | absent
  /-- The listener has left. -/
  | closed
  /-- The listener keeps what it receives; these are the events so far. -/
  | collecting (events : List Event)
deriving DecidableEq

namespace Sink

/-- The sink after one more event was sent. -/
def send : Sink → Event → Sink
  | collecting events, e => collecting (events ++ [e])
  | other, _ => other

end Sink

/-- A computation that sends events on its way. What was sent before a failure stays sent. -/
abbrev Sending (α : Type) := ExceptT Failure (StateM Sink) α

namespace Sending

variable {α : Type}

/-- Sends an event. -/
def emit (e : Event) : Sending Unit := modify (·.send e)

/-- Takes a result as it is. -/
def ofResult (result : Except Failure α) : Sending α := ExceptT.mk (pure result)

/-- Looks something up in the tables of a graph. -/
def lookUp (result : Except GraphError α) : Sending α := ofResult (failing .graph result)

section Steps

variable {V : Type} [BEq V] [Hashable V] [Label V]

/-- Decomposes a graph. A look-up past the end of a list is not reported as part of the
decomposition. -/
def decompose (g : LabeledGraph V) (detector : Detector) : Sending Decomposition :=
  match detector g.graph with
  | .error (.indexOutOfBounds size index) =>
    ofResult (.error (.ofCause (.graph (.indexOutOfBounds size index))))
  | result => ofResult (during .computing (failing .graph result))

/-- Announces and describes components one after the other. -/
def describe (g : LabeledGraph V) (d : Decomposition) : List Nat → Sending Computation.Listing
  | [] => return ⟨[], []⟩
  | c :: rest => do
    let members ← lookUp (fetch d.components c)
    emit (← lookUp (Computation.announce g d c members))
    let texts ← lookUp (members.toList.mapM (Computation.labelText g))
    let others ← describe g d rest
    return ⟨members.size :: others.sizes, texts :: others.components⟩

/-- Makes the report on a decomposed graph. -/
def aggregate (g : LabeledGraph V) (d : Decomposition) : Sending Report := do
  emit (.phaseStarted Phase.aggregation.name)
  let listing ← describe g d (Computation.ranking d)
  let leaders ← lookUp (Computation.leaders g 0 d.leader.toList)
  let report := Computation.assemble g d listing leaders
  emit (.phaseFinished Phase.aggregation.name)
  emit (.finished report.stats)
  return report

/-- Makes the report on a graph. -/
def compute (g : LabeledGraph V) (detector : Detector) : Sending Report := do
  emit (.graphLoaded g.vertexCount g.edgeCount)
  emit (.phaseStarted Phase.components.name)
  let d ← decompose g detector
  emit (Computation.computedEvent g d)
  emit (.phaseFinished Phase.components.name)
  aggregate g d

end Steps

end Sending

end StrongComponents
