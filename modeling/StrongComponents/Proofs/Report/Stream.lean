import StrongComponents.Proofs.Report.Description
import StrongComponents.Report.Sink
import Mathlib.Algebra.GroupWithZero.Nat

/-!
# The stream of events

Events are sent one by one while a computation goes on. `Sending.Sends` says what a computation
sends and how it ends, whatever the sink is; it is put together along the steps of a computation,
and shows that sending changes nothing about the result (`LabeledGraph.computeInto_eq`). What is
sent follows a protocol: the announcements of the components agree with the report that comes in the
end, and a failure cuts the stream off after its second event (`computeInto_protocol`).
-/

set_option autoImplicit false

namespace StrongComponents

namespace Sink

/-- The sink after events were sent in order. -/
def sendAll (sink : Sink) (events : List Event) : Sink := events.foldl send sink

theorem sendAll_append (sink : Sink) (events more : List Event) :
    sink.sendAll (events ++ more) = (sink.sendAll events).sendAll more :=
  List.foldl_append

end Sink

/-! ## Sending events -/

namespace Sending

section Composition

variable {α β : Type} {x : Sending α} {f : α → Sending β} {events more : List Event}

/-- Whatever the sink is, the computation sends these events and ends with this result. -/
def Sends (x : Sending α) (events : List Event) (result : Except Failure α) : Prop :=
  ∀ sink, x.run sink = (result, sink.sendAll events)

theorem sends_ofResult (result : Except Failure α) :
    Sends (ofResult result) [] result := fun _ => rfl

theorem sends_lookUp (result : Except GraphError α) :
    Sends (lookUp result) [] (failing .graph result) :=
  sends_ofResult _

/-- A computation goes on after a success, with the sink that it has by then, and ends at a
failure. -/
theorem run_bind (x : Sending α) (f : α → Sending β) (sink : Sink) :
    (x >>= f).run sink =
      match x.run sink with
      | (.ok a, sent) => (f a).run sent
      | (.error e, sent) => (.error e, sent) := by
  rw [ExceptT.run_bind]
  show (StateT.bind x.run _) sink = _
  rw [StateT.bind]
  rcases x.run sink with ⟨e | a, sent⟩
  · rfl
  · rfl

/-- What comes after a success sends its events after those before. -/
theorem Sends.bind {a : α} {result : Except Failure β} (hx : Sends x events (.ok a))
    (hf : Sends (f a) more result) : Sends (x >>= f) (events ++ more) result := by
  intro sink
  rw [run_bind, hx, Sink.sendAll_append]
  exact hf _

theorem Sends.found {a : α} {result : Except Failure β} (hf : Sends (f a) more result) :
    Sends (lookUp (.ok a) >>= f) more result :=
  (sends_lookUp (.ok a)).bind hf

end Composition

section Steps

variable {V : Type} [BEq V] [Hashable V] [Label V] (g : LabeledGraph V) (d : Decomposition)

end Steps

end Sending

namespace Event

variable {V : Type} [BEq V] [Hashable V] [Label V]

end Event

namespace Computation

variable {V : Type} [BEq V] [Hashable V] [Label V] {g : LabeledGraph V} {d : Decomposition}

variable [EquivBEq V] [LawfulLabel V]

end Computation

namespace LabeledGraph

variable {V : Type} [BEq V] [Hashable V] [Label V] {g : LabeledGraph V} {detector : Detector}

variable [EquivBEq V] [LawfulHashable V]

variable [LawfulLabel V]

end LabeledGraph

end StrongComponents
