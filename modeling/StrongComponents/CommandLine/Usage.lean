/-!
# Wrong use of the command line
-/

set_option autoImplicit false

namespace StrongComponents

/-- Ways in which a command line cannot be understood. -/
inductive UsageError where
  /-- No known command, or help was asked for. -/
  | help
  | unknownArgument (argument : String)
  | missingValue (flag : String)
  | unknownFormat (word : String)
  | unknownStrategy (word : String)
  | notANumber (flag word : String)
  | missingInput
  | depthWithoutRecursion
deriving DecidableEq

namespace UsageError

/-- How the program is used. -/
def usage : String :=
  "Usage:\n" ++
  "  scc compute --in/--input <graph> [--format json|edges] [--out/--output <report.json>] " ++
  "[--top <k>] [--strategy iterative|recursive] [--max-depth <n>] [--emit-events]\n" ++
  "  scc validate --in/--input <graph> [--format json|edges]\n" ++
  "  scc sample [--top <k>] [--strategy iterative|recursive] [--max-depth <n>] [--emit-events]\n" ++
  "\n" ++
  "Formats:\n" ++
  "  json   \x7b\"adjacency\": \x7b\"<vertex>\": [<vertex>, ...]\x7d\x7d\n" ++
  "  edges  one `<from> <to>` pair per line; a lone `<vertex>` declares an isolated vertex\n" ++
  "  Defaults to json for *.json paths, edges otherwise.\n" ++
  "\n" ++
  "Events:\n" ++
  "  If --emit-events is set, NDJSON events are written to stdout; " ++
  "the report and summary go to stderr."

/-- A complaint above the explanation of how the program is used. -/
def withUsage (complaint : String) : String := complaint ++ "\n\n" ++ usage

/-- The wording of each error. -/
def message : UsageError → String
  | help => usage
  | unknownArgument argument => withUsage s!"unknown arg: {argument}"
  | missingValue flag => withUsage s!"missing value for {flag}"
  | unknownFormat word => withUsage s!"unknown format: {word}"
  | unknownStrategy word => withUsage s!"unknown strategy: {word}"
  | notANumber flag word => s!"{flag} expects a non-negative integer, got {word}"
  | missingInput => withUsage "missing --in/--input"
  | depthWithoutRecursion => withUsage "--max-depth requires --strategy recursive"

end UsageError

end StrongComponents
