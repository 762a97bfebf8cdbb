import StrongComponents.CommandLine.Command
import StrongComponents.GraphFile.Validation
import StrongComponents.Report.Compute

/-!
# Running commands

`Command.perform` says what a command prints and what it wants to write, given what reading
a file gives. `run` carries a whole command line out on a disk. Some of it is up to the
machine that the program runs on.
-/

set_option autoImplicit false

namespace StrongComponents

/-- The texts on the two output channels. -/
structure Printed where
  stdout : String
  stderr : String
deriving DecidableEq

namespace Printed

/-- Nothing is printed. -/
def nothing : Printed := ⟨"", ""⟩

end Printed

/-- What is up to the machine. Lines of events are printed by a task of their own, and a run that
fails ends without waiting for it. -/
structure Machine where
  /-- Whether it has the stack that is asked for. -/
  stack : Stack.Supply
  /-- How many lines of events are out when a failed run ends, if there are as many. -/
  linesInTime : Nat

/-- How reading a file goes. -/
abbrev FileReader := String → Except FileError ByteArray

/-- The text of a file. -/
def readText (read : FileReader) (path : String) : Except FileError String := do
  decodeText (← read path)

/-- The graph in a source. -/
def Source.load (read : FileReader) (source : Source) : Except Failure (LabeledGraph String) :=
  match source.format with
  | .json => do
    let text ← during (.readingGraph source.path) (failing .file (readText read source.path))
    during (.validatingGraph source.path) (GraphFile.validateText text)
  | .edgeList =>
    during (.readingEdgeList source.path) do
      let text ← failing .file (readText read source.path)
      failing .edgeList (EdgeList.parse text)

/-- The line that sums a report up. -/
def Stats.summary (s : Stats) : String :=
  Report.line
    (s!"summary: vertices={s.vertices} edges={s.edges} components={s.components} " ++
      s!"cyclic_components={s.cyclicComponents} largest_component={s.largestComponent}")

/-- Computes the report on a graph. Events go to the standard output if they are wanted, and the
text of the report then goes to the other channel. All events are out before the report is shown,
but a failure ends the run at once. -/
def ComputeOptions.perform {V : Type} [BEq V] [Hashable V] [Label V] (options : ComputeOptions)
    (machine : Machine) (g : LabeledGraph V) : Printed × Except Failure Report :=
  let (events, result) := g.compute (·.decompose machine.stack options.strategy)
  match result with
  | .error f =>
    let inTime := events.take machine.linesInTime
    (⟨if options.emitEvents then Event.stream inTime else "", ""⟩, .error f)
  | .ok report =>
    let text := report.render options.top
    let printed : Printed :=
      if options.emitEvents then ⟨Event.stream events, text ++ report.stats.summary⟩
      else ⟨text, report.stats.summary⟩
    (printed, .ok report)

/-- A file to be written. -/
structure Output where
  path : String
  text : String
deriving DecidableEq

namespace Command

/-- What a command prints, and the file that it writes in the end. -/
def perform (machine : Machine) (read : FileReader) :
    Command → Printed × Except Failure (Option Output)
  | compute source output options =>
    match source.load read with
    | .error f => (.nothing, .error f)
    | .ok g =>
      let (printed, result) := options.perform machine g
      (printed, result.map fun report => output.map (⟨·, report.document⟩))
  | validate source =>
    match source.load read with
    | .error f => (.nothing, .error f)
    | .ok g =>
      let text := s!"ok: graph is well-formed (vertices={g.vertexCount} edges={g.edgeCount})"
      (⟨"", Report.line text⟩, .ok none)
  | sample options =>
    match during .buildingSample (failing .graph sampleGraph) with
    | .error f => (.nothing, .error f)
    | .ok g =>
      let (printed, result) := options.perform machine g
      (printed, result.map fun _ => none)

end Command

/-- What came of a command line. -/
structure Run where
  result : Except Failure Unit
  printed : Printed
  disk : Disk

/-- Carries out a command line, the first word of which is the name of the program. -/
def run (machine : Machine) (disk : Disk) (arguments : List String) : Run :=
  match Command.ofArguments arguments with
  | .error e => ⟨.error (.ofCause (.usage e)), .nothing, disk⟩
  | .ok command =>
    let (printed, result) := command.perform machine disk.read
    match result with
    | .error f => ⟨.error f, printed, disk⟩
    | .ok none => ⟨.ok (), printed, disk⟩
    | .ok (some output) =>
      match during (.writingReport output.path)
          (failing .file (disk.write output.path output.text.toUTF8)) with
      | .error f => ⟨.error f, printed, disk⟩
      | .ok disk => ⟨.ok (), printed, disk⟩

namespace Run

/-- The exit code of the program. -/
def exitCode (r : Run) : Nat :=
  match r.result with
  | .ok _ => 0
  | .error _ => 1

/-- What the program prints, with the failure at the end of the second channel. -/
def printedByProgram (r : Run) : Printed :=
  match r.result with
  | .ok _ => r.printed
  | .error f => { r.printed with stderr := r.printed.stderr ++ Report.line f.report }

end Run

end StrongComponents
