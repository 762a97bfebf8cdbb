import StrongComponents.Labeled.Basic
import StrongComponents.Text.Blank
import StrongComponents.Text.Pieces

/-!
# Edge lists

An edge list is a text with one edge a line: the labels of its source and its target, separated by
blanks. A single label is a vertex, an empty line is nothing, and a number sign starts a comment.
-/

set_option autoImplicit false

namespace StrongComponents

/-- Why an edge list makes no graph. -/
inductive EdgeListError where
  /-- A line has more than two labels. -/
  | tooManyLabels (line labels : Nat)
  /-- What a line says cannot be added. -/
  | graph (error : GraphError)
deriving DecidableEq

/-- The wording of each error. -/
def EdgeListError.message : EdgeListError → String
  | tooManyLabels line labels =>
    s!"line {line}: expected `<from> <to>` or `<vertex>`, got {labels} tokens"
  | graph e => e.message

namespace EdgeList

/-- The lines of a text. A carriage return before the end of a line is a blank like any other. -/
def lines (text : String) : List (List Char) := Text.pieces (· == '\n') text.toList

/-- The labels on a line, up to a comment. -/
def labels (line : List Char) : List String :=
  (Text.runs Text.isBlank (line.takeWhile (· != '#'))).map String.ofList

/-- Adds what a line says to the graph. -/
def addLine (g : LabeledGraph String) (line : List Char) (number : Nat) :
    Except EdgeListError (LabeledGraph String) :=
  match labels line with
  | [] => .ok g
  | [v] => .ok (g.addVertex v)
  | [source, target] => (g.addEdge source target).mapError .graph
  | found => .error (.tooManyLabels number found.length)

/-- Adds what some lines say, the first of which has the given number. -/
def addLines (g : LabeledGraph String) (number : Nat) :
    List (List Char) → Except EdgeListError (LabeledGraph String)
  | [] => .ok g
  | line :: rest =>
    match addLine g line number with
    | .error e => .error e
    | .ok g => addLines g (number + 1) rest

/-- The graph that an edge list describes. -/
def parse (text : String) : Except EdgeListError (LabeledGraph String) :=
  addLines .empty 1 (lines text)

end EdgeList

end StrongComponents
