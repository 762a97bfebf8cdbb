import StrongComponents.Failure

/-!
# From graph files to graphs

A text becomes a graph in three steps: it has to be JSON of the shape of a graph file, it has to be
a graph file, and every vertex that the file mentions has to be declared once.
-/

set_option autoImplicit false

namespace StrongComponents.GraphFile

/-- The graph of a file. -/
def build (file : GraphFile) : Except Failure (LabeledGraph String) :=
  during .buildingGraph (failing .graph file.toLabeledGraph)

/-- The graph of a file whose document has the right shape. -/
def validate (file : GraphFile) : Except Failure (LabeledGraph String) := do
  failing .schema (checkDocument file.document)
  file.build

/-- The graph of a text. -/
def validateText (text : String) : Except Failure (LabeledGraph String) := do
  let document ← during .parsingDocument (failing .document (Json.parse text))
  failing .schema (checkDocument document)
  let file ← failing .graphFile (parse text)
  file.build

end StrongComponents.GraphFile
