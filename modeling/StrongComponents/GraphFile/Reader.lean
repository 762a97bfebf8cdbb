import StrongComponents.GraphFile.Basic
import StrongComponents.Json.Tree

/-!
# Reading graph files

`GraphFile.parse` reads a text from left to right and stops at the first thing that is no JSON or
has no place in a graph file.
-/

set_option autoImplicit false

namespace StrongComponents

/-- A kind of value that a graph file has somewhere. -/
inductive Expected where
  | document
  | text
  | adjacency
  | list
deriving DecidableEq

/-- The wording of what is expected. -/
def Expected.message : Expected → String
  | document => "struct GraphFileDto"
  | text => "a string"
  | adjacency => "an adjacency object mapping vertex ids to neighbor lists"
  | list => "a sequence"

/-- What is found in place of the expected. -/
inductive Found where
  | scalar (value : Scalar)
  | array
  | object
deriving DecidableEq

/-- The wording of what is found. -/
def Found.message : Found → String
  | scalar .null => "null"
  | scalar (.bool b) => s!"boolean `{b}`"
  | scalar (.number (.int i)) => s!"integer `{i}`"
  | scalar (.number (.float x)) => "floating point `" ++ String.ofList (Number.float x).text ++ "`"
  | scalar (.string s) => s!"string {Text.quote s}"
  | array => "sequence"
  | object => "map"

/-- Why a text is no graph file. -/
inductive GraphFileError where
  | malformed (cause : SyntaxError)
  | mismatch (found : Found) (expected : Expected)
  /-- A neighbour is neither a text nor a 64-bit integer. -/
  | noReference
  | duplicateField (name : String)
deriving DecidableEq

/-- The wording of each cause. -/
def GraphFileError.message : GraphFileError → String
  | malformed cause => cause.message
  | mismatch found expected => s!"invalid type: {found.message}, expected {expected.message}"
  | noReference => "data did not match any variant of untagged enum VertexRefDto"
  | duplicateField name => s!"duplicate field `{name}`"

namespace GraphFile

/-- A fault noticed at a place. -/
abbrev Failed := Fault GraphFileError

/-- The fault of a value that is not what is expected. A scalar is noticed after it, an
array or object before it. -/
def unexpected (expected : Expected) : Tree → Failed
  | .scalar value stop => ⟨.mismatch (.scalar value) expected, stop⟩
  | .array start _ _ => ⟨.mismatch .array expected, start⟩
  | .object start _ _ => ⟨.mismatch .object expected, start⟩
  | .broken fault => fault.map .malformed

/-- Fails if a fault ends the array or object. -/
def finish {α : Type} (value : α) : Option (Fault SyntaxError) → Except Failed α
  | none => .ok value
  | some fault => .error (fault.map .malformed)

/-- The integers of 64 bits with sign. -/
def isInt64 (i : Int) : Bool := -0x8000000000000000 ≤ i && i < 0x8000000000000000

/-- The reference that a JSON value is. -/
def reference? : Json → Option VertexRef
  | .scalar (.number (.int i)) => if isInt64 i then some (.number i) else none
  | .scalar (.string s) => some (.name s)
  | _ => none

/-- Any value. -/
def readValue (tree : Tree) : Except Failed Json := tree.toJson.mapError (·.map .malformed)

/-- References in order. The value is read to its end before it is looked at. -/
def readReferences : List (Tree × Nat) → Except Failed (List VertexRef)
  | [] => .ok []
  | (tree, after) :: rest => do
    let value ← readValue tree
    match reference? value with
    | none => throw ⟨.noReference, after⟩
    | some ref => return ref :: (← readReferences rest)

/-- A neighbour list. -/
def readNeighbors : Tree → Except Failed (List VertexRef)
  | .array _ items fault => do finish (← readReferences items) fault
  | other => .error (unexpected .list other)

/-- Vertices with their neighbour lists in order. -/
def readEntries : List (Key × Tree) → Except Failed (List (String × List VertexRef))
  | [] => .ok []
  | (key, tree) :: rest => do
    let refs ← readNeighbors tree
    return (key.name, refs) :: (← readEntries rest)

/-- The neighbour lists. -/
def readAdjacency : Tree → Except Failed (List (String × List VertexRef))
  | .object _ members fault => do finish (← readEntries members) fault
  | other => .error (unexpected .adjacency other)

/-- The name, which may be null. -/
def readName : Tree → Except Failed (Option String)
  | .scalar (.string s) _ => .ok (some s)
  | .scalar .null _ => .ok none
  | other => .error (unexpected .text other)

/-- The fields read so far, the others in the order of the text. -/
structure Fields where
  name : Option (Option String)
  adjacency : Option (List (String × List VertexRef))
  extra : List (String × Json)

/-- Adds a field. The name and the neighbour lists may be given once, which is checked
before the value is read. -/
def Fields.add (fields : Fields) (key : Key) (tree : Tree) : Except Failed Fields := do
  if key.name = nameField then
    if fields.name.isSome then throw ⟨.duplicateField nameField, key.stop⟩
    return { fields with name := some (← readName tree) }
  else if key.name = adjacencyField then
    if fields.adjacency.isSome then throw ⟨.duplicateField adjacencyField, key.stop⟩
    return { fields with adjacency := some (← readAdjacency tree) }
  else
    return { fields with extra := fields.extra ++ [(key.name, ← readValue tree)] }

/-- Adds fields in order. -/
def Fields.addAll (fields : Fields) : List (Key × Tree) → Except Failed Fields
  | [] => .ok fields
  | (key, tree) :: rest => do (← fields.add key tree).addAll rest

/-- The file with the given fields; without neighbour lists it has no vertex. -/
def ofFields (fields : Fields) : GraphFile :=
  { name := fields.name.getD none
    adjacency := fields.adjacency.getD []
    extra := Json.sortMembers fields.extra }

/-- The file that a tree holds. -/
def ofTree : Tree → Except Failed GraphFile
  | .object _ members fault => do
    finish (ofFields (← Fields.addAll ⟨none, none, []⟩ members)) fault
  | other => .error (unexpected .document other)

/-- The file that a text holds. -/
def parse (text : String) : Except (ReadError GraphFileError) GraphFile :=
  let chars := text.toList
  ((TextTree.ofText chars).interpret ofTree .malformed).mapError (ReadError.ofFault chars)

end GraphFile

end StrongComponents
