import StrongComponents.CommandLine.Usage
import StrongComponents.Traversal.Basic

/-!
# Commands

A command line is the name of the program, the word `scc`, a verb, and settings in any order. A
setting is a flag with its value, which may itself look like a flag, or a flag that has no value. Of
settings with one flag the last one counts.
-/

set_option autoImplicit false

namespace StrongComponents

/-- What a graph file is written in. -/
inductive GraphFormat where
  | json
  | edgeList
deriving DecidableEq

namespace GraphFormat

/-- The format that a word names. -/
def ofWord? (word : String) : Option GraphFormat :=
  if word = "json" then some json
  else if word = "edges" then some edgeList
  else none

/-- The format of a file whose format is not given: JSON if the path ends with `.json` in any
mixture of cases. Only ASCII letters have two cases here. -/
def ofPath (path : String) : GraphFormat :=
  if ".json".toList.isSuffixOf (path.toList.map Char.toLower) then json else edgeList

end GraphFormat

/-- The verbs of the program. -/
inductive Verb where
  | compute
  | validate
  | sample
deriving DecidableEq

/-- The verb that a word names. -/
def Verb.ofWord? (word : String) : Option Verb :=
  if word = "compute" then some compute
  else if word = "validate" then some validate
  else if word = "sample" then some sample
  else none

/-- A flag with its value. -/
inductive Setting where
  | input (path : String)
  | format (format : GraphFormat)
  | output (path : String)
  | top (count : Nat)
  | recursion (wanted : Bool)
  | maxDepth (depth : Nat)
  | emitEvents
deriving DecidableEq

/-- The flags. Two of them have a second spelling. -/
inductive Flag where
  | input
  | format
  | output
  | top
  | strategy
  | maxDepth
  | emitEvents
deriving DecidableEq

namespace Flag

/-- The flag that a word spells. -/
def ofWord? (word : String) : Option Flag :=
  if word = "--in" ∨ word = "--input" then some input
  else if word = "--format" then some format
  else if word = "--out" ∨ word = "--output" then some output
  else if word = "--top" then some top
  else if word = "--strategy" then some strategy
  else if word = "--max-depth" then some maxDepth
  else if word = "--emit-events" then some emitEvents
  else none

/-- The spelling that messages use. -/
def word : Flag → String
  | input => "--in"
  | format => "--format"
  | output => "--out"
  | top => "--top"
  | strategy => "--strategy"
  | maxDepth => "--max-depth"
  | emitEvents => "--emit-events"

/-- Whether a verb knows the flag. -/
def isFor : Flag → Verb → Bool
  | input, verb => verb != .sample
  | format, verb => verb != .sample
  | output, verb => verb == .compute
  | _, verb => verb != .validate

/-- The greatest number on a command line. -/
def maxNumber : Nat := 0xFFFFFFFFFFFFFFFF

/-- The number that a word writes: decimal digits, at least one, with at most one plus sign before
them. -/
def number? (word : String) : Option Nat :=
  let digits :=
    match word.toList with
    | '+' :: digits => digits
    | digits => digits
  if digits ≠ [] ∧ digits.all Char.isDigit ∧ Nat.ofDigitChars 10 digits 0 ≤ maxNumber then
    some (Nat.ofDigitChars 10 digits 0)
  else none

/-- The setting of a number. -/
def numberSetting (flag : Flag) (setting : Nat → Setting) (value : String) :
    Except UsageError Setting :=
  match number? value with
  | some n => .ok (setting n)
  | none => .error (.notANumber flag.word value)

/-- The setting that a flag makes with the word after it. -/
def setting (value : String) : Flag → Except UsageError Setting
  | input => .ok (.input value)
  | format =>
    match GraphFormat.ofWord? value with
    | some f => .ok (.format f)
    | none => .error (.unknownFormat value)
  | output => .ok (.output value)
  | top => numberSetting top .top value
  | strategy =>
    if value = "iterative" then .ok (.recursion false)
    else if value = "recursive" then .ok (.recursion true)
    else .error (.unknownStrategy value)
  | maxDepth => numberSetting maxDepth .maxDepth value
  | emitEvents => .ok .emitEvents

end Flag

/-- The flag that a word spells for a verb. -/
def Verb.flag (verb : Verb) (word : String) : Except UsageError Flag :=
  match Flag.ofWord? word with
  | some flag => if flag.isFor verb then .ok flag else .error (.unknownArgument word)
  | none => .error (if word = "-h" ∨ word = "--help" then .help else .unknownArgument word)

/-- The settings that the words after a verb make. -/
def Verb.settings (verb : Verb) : List String → Except UsageError (List Setting)
  | [] => .ok []
  | word :: rest =>
    match verb.flag word with
    | .error e => .error e
    | .ok .emitEvents => (verb.settings rest).map (.emitEvents :: ·)
    | .ok flag =>
      match rest with
      | [] => .error (.missingValue flag.word)
      | value :: rest =>
        match flag.setting value with
        | .error e => .error e
        | .ok setting => (verb.settings rest).map (setting :: ·)

/-- The last value given for each flag. -/
structure Settings where
  input : Option String
  format : Option GraphFormat
  output : Option String
  top : Option Nat
  recursion : Bool
  maxDepth : Option Nat
  emitEvents : Bool
deriving DecidableEq

namespace Settings

/-- Nothing is given. -/
def initial : Settings := ⟨none, none, none, none, false, none, false⟩

/-- Applies a setting, which replaces an earlier one. -/
def apply (s : Settings) : Setting → Settings
  | .input path => { s with input := some path }
  | .format format => { s with format := some format }
  | .output path => { s with output := some path }
  | .top count => { s with top := some count }
  | .recursion wanted => { s with recursion := wanted }
  | .maxDepth depth => { s with maxDepth := some depth }
  | .emitEvents => { s with emitEvents := true }

/-- All settings applied in order. -/
def ofList (settings : List Setting) : Settings := settings.foldl apply initial

end Settings

/-- A file to read a graph from. -/
structure Source where
  path : String
  format : GraphFormat
deriving DecidableEq

/-- How a computation is carried out and shown. -/
structure ComputeOptions where
  top : Option Nat
  strategy : Strategy
  emitEvents : Bool
deriving DecidableEq

/-- What the program is asked to do. -/
inductive Command where
  | compute (source : Source) (output : Option String) (options : ComputeOptions)
  | validate (source : Source)
  | sample (options : ComputeOptions)
deriving DecidableEq

namespace Settings

/-- The source, which has to be given. -/
def source (s : Settings) : Except UsageError Source :=
  match s.input with
  | none => .error .missingInput
  | some path => .ok ⟨path, s.format.getD (GraphFormat.ofPath path)⟩

/-- The options of a computation. A depth limit is only for nested calls. -/
def computeOptions (s : Settings) : Except UsageError ComputeOptions :=
  if s.maxDepth.isSome ∧ s.recursion = false then .error .depthWithoutRecursion
  else
    let strategy :=
      if s.recursion then .recursive (s.maxDepth.getD Strategy.defaultMaxDepth) else .iterative
    .ok ⟨s.top, strategy, s.emitEvents⟩

/-- The command that a verb makes with the settings. -/
def command (s : Settings) : Verb → Except UsageError Command
  | .compute => do
    let source ← s.source
    return .compute source s.output (← s.computeOptions)
  | .validate => return .validate (← s.source)
  | .sample => return .sample (← s.computeOptions)

end Settings

/-- The command on a command line, the first word of which is the name of the program. -/
def Command.ofArguments : List String → Except UsageError Command
  | _ :: "scc" :: word :: rest =>
    match Verb.ofWord? word with
    | none => .error .help
    | some verb => do (Settings.ofList (← verb.settings rest)).command verb
  | _ => .error .help

/-- The file that the command reads. -/
def Command.source? : Command → Option Source
  | .compute source _ _ => some source
  | .validate source => some source
  | .sample _ => none

end StrongComponents
