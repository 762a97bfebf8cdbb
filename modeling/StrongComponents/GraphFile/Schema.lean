import StrongComponents.GraphFile.Basic

/-!
# The shape of graph documents

`GraphFile.violations` lists everything by which a JSON document differs from the shape of a graph
file. The order is fixed: the neighbour lists first, then the name, then a missing field.
-/

set_option autoImplicit false

namespace StrongComponents

/-- Kinds of JSON values that the shape asks for. -/
inductive JsonKind where
  | array
  | object
  | string
deriving DecidableEq

/-- The name of the kind. -/
def JsonKind.name : JsonKind → String
  | array => "array"
  | object => "object"
  | string => "string"

/-- A difference from the shape of a graph file. -/
inductive Violation where
  | wrongKind (value : Json) (kind : JsonKind)
  /-- A neighbour is neither an integral number nor a text that is not empty. -/
  | noReference (value : Json)
  | emptyVertexName
  | missingField (name : String)

/-- The wording of each difference. -/
def Violation.message : Violation → String
  | wrongKind value kind => s!"{value.text} is not of type {(Json.ofString kind.name).text}"
  | noReference value =>
      value.text ++ " is not valid under any of the schemas listed in the 'anyOf' keyword"
  | emptyVertexName => "\"\" is shorter than 1 character"
  | missingField name => s!"{(Json.ofString name).text} is a required property"

namespace GraphFile

/-- Whether a value can stand in a neighbour list: an integral number, or a text that is not
empty. -/
def isReference : Json → Bool
  | .scalar (.number n) => n.isIntegral
  | .scalar (.string s) => s ≠ ""
  | _ => false

/-- Differences in the neighbour list of a vertex. -/
def neighborViolations : Json → List Violation
  | .array items => (items.filter (!isReference ·)).map .noReference
  | other => [.wrongKind other .array]

/-- Differences in the neighbour lists; members are taken in ascending order of their names. -/
def adjacencyViolations : Json → List Violation
  | .object members =>
    (Json.sortMembers members).flatMap (fun (_, value) => neighborViolations value) ++
      (if members.any (·.1 = "") then [.emptyVertexName] else [])
  | other => [.wrongKind other .object]

/-- Differences in the name. -/
def nameViolations : Json → List Violation
  | .scalar (.string _) => []
  | other => [.wrongKind other .string]

/-- All differences between a document with unique member names and the shape of a graph file. -/
def violations : Json → List Violation
  | .object members =>
    ((members.lookup adjacencyField).map adjacencyViolations).getD [] ++
      ((members.lookup nameField).map nameViolations).getD [] ++
      (if (members.lookup adjacencyField).isNone then [.missingField adjacencyField] else [])
  | other => [.wrongKind other .object]

/-- Accepts the documents that have the shape of a graph file. -/
def checkDocument (document : Json) : Except (List Violation) Unit :=
  match violations document with
  | [] => .ok ()
  | found => .error found

end GraphFile

/-- The wording of all differences, one a line. -/
def Violation.report (found : List Violation) : String :=
  "Graph file validation failed:\n" ++ String.intercalate "\n" (found.map Violation.message)

end StrongComponents
