import StrongComponents.CommandLine.File
import StrongComponents.CommandLine.Usage
import StrongComponents.GraphFile.Reader
import StrongComponents.GraphFile.Schema
import StrongComponents.Labeled.EdgeList

/-!
# Failures and what was being done

A failure has a cause and the stages of work that it happened in, outermost first. Its message is
the messages of the stages followed by that of the cause.
-/

set_option autoImplicit false

namespace StrongComponents

/-- Causes of failure. -/
inductive Cause where
  | graph (error : GraphError)
  | document (error : ReadError SyntaxError)
  | graphFile (error : ReadError GraphFileError)
  | schema (violations : List Violation)
  | edgeList (error : EdgeListError)
  | file (error : FileError)
  | usage (error : UsageError)

/-- The wording of each cause. -/
def Cause.message : Cause → String
  | graph e => e.message
  | document e => e.message SyntaxError.message
  | graphFile e => e.message GraphFileError.message
  | schema violations => Violation.report violations
  | edgeList e => e.message
  | file e => e.message
  | usage e => e.message

/-- Stages of work in which something can fail. -/
inductive Stage where
  | computing
  | parsingDocument
  | buildingGraph
  | buildingSample
  | readingGraph (path : String)
  | validatingGraph (path : String)
  | readingEdgeList (path : String)
  | writingReport (path : String)
deriving DecidableEq

/-- The wording of each stage. -/
def Stage.message : Stage → String
  | computing => "computing strongly connected components"
  | parsingDocument => "graph file is not valid JSON"
  | buildingGraph => "graph references a vertex that is not declared"
  | buildingSample => "building sample graph"
  | readingGraph path => s!"reading input graph JSON: {path}"
  | validatingGraph path => s!"validating graph: {path}"
  | readingEdgeList path => s!"reading input edge list: {path}"
  | writingReport path => s!"writing SCC report JSON: {path}"

/-- A cause within stages of work. -/
structure Failure where
  stages : List Stage
  cause : Cause

namespace Failure

/-- A failure in no particular stage. -/
def ofCause (cause : Cause) : Failure := ⟨[], cause⟩

/-- The failure within a further stage around it. -/
def within (stage : Stage) (f : Failure) : Failure := ⟨stage :: f.stages, f.cause⟩

/-- The messages from the outermost stage to the cause. -/
def messages (f : Failure) : List String := f.stages.map Stage.message ++ [f.cause.message]

/-- The messages on one line. -/
def message (f : Failure) : String := String.intercalate ": " f.messages

/-- A message with every line but the first indented. -/
def indentRest (indent : String) (message : String) : String :=
  String.intercalate ("\n" ++ indent) (message.splitOn "\n")

/-- Lines for the messages inside the outermost one: a single one is indented,
several are numbered from zero. -/
def causeLines : List String → List String
  | [] => []
  | [message] => ["    " ++ indentRest "    " message]
  | messages =>
    messages.zipIdx.map fun (message, n) =>
      let number := toString n
      "".pushn ' ' (5 - number.length) ++ number ++ ": " ++ indentRest "       " message

/-- What the program prints when it ends with the failure. -/
def report (f : Failure) : String :=
  match f.messages with
  | [] => "Error: "
  | [message] => "Error: " ++ message
  | message :: causes =>
    "Error: " ++ message ++ "\n\nCaused by:\n" ++ String.intercalate "\n" (causeLines causes)

end Failure

/-- Puts a stage around a failure. -/
def during {α : Type} (stage : Stage) (result : Except Failure α) : Except Failure α :=
  result.mapError (Failure.within stage)

/-- Makes a failure of an error. -/
def failing {ε α : Type} (cause : ε → Cause) (result : Except ε α) : Except Failure α :=
  result.mapError fun e => Failure.ofCause (cause e)

@[simp] theorem during_eq_ok_iff {α : Type} {stage : Stage} {result : Except Failure α} {a : α} :
    during stage result = .ok a ↔ result = .ok a := mapError_eq_ok_iff

@[simp] theorem failing_eq_ok_iff {ε α : Type} {cause : ε → Cause} {result : Except ε α} {a : α} :
    failing cause result = .ok a ↔ result = .ok a := mapError_eq_ok_iff

end StrongComponents
