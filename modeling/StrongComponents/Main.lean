import StrongComponents.CommandLine.Run

/-!
# The program

The outer layer of the command line: it reads the file that a command names, lets `Command.perform`
decide what to print and write, and does so.
-/

set_option autoImplicit false

namespace StrongComponents.Program

/-- The number of a failure in the operating system. Some operations report it with the sign
turned. -/
def failureNumber (code : UInt32) : UInt32 := if code < 0x80000000 then code else 0 - code

/-- Why an operation on a file failed. -/
def fileErrorOf : IO.Error → FileError
  | .noFileOrDirectory .. => .notFound
  | .inappropriateType _ code _ => if failureNumber code = 20 then .notFolder else .isFolder
  | .invalidArgument _ code details =>
      if failureNumber code = 36 then .nameTooLong
      else .other s!"{details} (os error {failureNumber code})"
  | .permissionDenied _ code details =>
      if failureNumber code = 13 then .other "Permission denied (os error 13)"
      else .other s!"{details} (os error {failureNumber code})"
  | e => .other (toString e)

/-- Runs an operation on a file. -/
def tryFile {α : Type} (action : IO α) : IO (Except FileError α) :=
  try return .ok (← action) catch e => return .error (fileErrorOf e)

/-- How many events a computation has told when it can fail. -/
def initialEvents : Nat := 2

/-- The machine that the program runs on. Nothing is printed by another task here, so no event is
left out. -/
def machine : Machine := ⟨Stack.ofAddressSpace, initialEvents⟩

/-- Prints on both channels. -/
def printBoth (printed : Printed) : IO Unit := do
  IO.print printed.stdout
  IO.eprint printed.stderr

/-- Ends the program with a failure. -/
def endWith (f : Failure) : IO UInt32 := do
  IO.eprintln f.report
  return 1

end StrongComponents.Program

open StrongComponents StrongComponents.Program

/-- Carries out a command line on the files of the system. -/
def main (arguments : List String) : IO UInt32 := do
  match Command.ofArguments ("scc" :: arguments) with
  | .error e => endWith (.ofCause (.usage e))
  | .ok command =>
    let content : Except FileError ByteArray ←
      match command.source? with
      | some source => tryFile (IO.FS.readBinFile source.path)
      | none => pure (.error .notFound)
    let (printed, result) := command.perform machine fun _ => content
    printBoth printed
    match result with
    | .error f => endWith f
    | .ok none => return 0
    | .ok (some output) =>
      let written ← tryFile (IO.FS.writeFile output.path output.text)
      match during (.writingReport output.path) (failing .file written) with
      | .error f => endWith f
      | .ok _ => return 0
