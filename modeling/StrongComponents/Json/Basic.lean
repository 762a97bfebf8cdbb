import StrongComponents.Binary64.Basic
import Std.Data.TreeMap

/-!
# JSON values

An object is the list of its members in order; a name may occur several times. `Json.canonical`
keeps the last member of each name and sorts the names, which is how a document is seen when the
order of its members plays no part.
-/

set_option autoImplicit false

namespace StrongComponents

/-- A JSON number: an integer, or a number that was written with a fraction or an exponent or is too
big. -/
inductive Number where
  | int (value : Int)
  | float (value : Binary64)
deriving DecidableEq

namespace Number

/-- Whether the number has no fractional part. -/
def isIntegral : Number → Bool
  | int _ => true
  | float x => x.isIntegral

end Number

/-- A JSON value without parts. -/
inductive Scalar where
  | null
  | bool (value : Bool)
  | number (value : Number)
  | string (value : String)
deriving DecidableEq

/-- A JSON value. -/
inductive Json where
  | scalar (value : Scalar)
  | array (items : List Json)
  | object (members : List (String × Json))

namespace Json

/-- The JSON number of a count. -/
def ofNat (n : Nat) : Json := scalar (.number (.int n))

/-- The JSON string of a text. -/
def ofString (s : String) : Json := scalar (.string s)

/-- The JSON truth value. -/
def ofBool (b : Bool) : Json := scalar (.bool b)

/-- Members in ascending order of their names; of members with one name the last one stays. -/
def sortMembers (members : List (String × Json)) : List (String × Json) :=
  (Std.TreeMap.ofList members compare).toList

mutual

/-- The value with the members of every object sorted and the names made unique. -/
def canonical : Json → Json
  | scalar s => scalar s
  | array items => array (canonicalItems items)
  | object members => object (sortMembers (canonicalMembers members))

/-- Makes every item canonical. -/
def canonicalItems : List Json → List Json
  | [] => []
  | item :: rest => item.canonical :: canonicalItems rest

/-- Makes the value of every member canonical. -/
def canonicalMembers : List (String × Json) → List (String × Json)
  | [] => []
  | (name, value) :: rest => (name, value.canonical) :: canonicalMembers rest

end

end Json

end StrongComponents
