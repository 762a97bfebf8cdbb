import StrongComponents.Json.Printer
import StrongComponents.Labeled.Basic

/-!
# Graph files

A graph file has an optional name, the neighbour lists of its vertices, and other fields that play
no part. A vertex is declared by a text and referred to by a text or an integer. Entries keep their
order, and a vertex that is declared twice stays twice in the file.
-/

set_option autoImplicit false

namespace StrongComponents

/-- A reference to a vertex. -/
inductive VertexRef where
  | number (value : Int)
  | name (value : String)
deriving DecidableEq

namespace VertexRef

/-- The label referred to. -/
def label : VertexRef → String
  | number i => String.ofList (intText i)
  | name s => s

/-- The reference as a JSON value. -/
def toJson : VertexRef → Json
  | number i => .scalar (.number (.int i))
  | name s => .ofString s

end VertexRef

/-- A graph file; `extra` holds its other fields in ascending order of their names. -/
structure GraphFile where
  name : Option String
  adjacency : List (String × List VertexRef)
  extra : List (String × Json)

namespace GraphFile

/-- The field for the name. -/
def nameField : String := "name"

/-- The field for the neighbour lists. -/
def adjacencyField : String := "adjacency"

/-- The neighbour lists as a JSON object. -/
def adjacencyJson (file : GraphFile) : Json :=
  .object (file.adjacency.map fun (v, refs) => (v, .array (refs.map VertexRef.toJson)))

/-- The fields in the order in which they are written: the name if there is one, the
neighbour lists, the others. -/
def toJson (file : GraphFile) : Json :=
  let name := file.name.toList.map fun s => (nameField, Json.ofString s)
  .object (name ++ (adjacencyField, file.adjacencyJson) :: file.extra)

/-- The text of the file. -/
def text (file : GraphFile) : String := file.toJson.text

/-- The file as a document in which the order of fields plays no part; of fields with one
name the last one counts. -/
def document (file : GraphFile) : Json := file.toJson.canonical

/-- The graph that the file describes. -/
def toLabeledGraph (file : GraphFile) : Except GraphError (LabeledGraph String) :=
  LabeledGraph.ofAdjacency (file.adjacency.map fun (v, refs) => (v, refs.map VertexRef.label))

end GraphFile

end StrongComponents
