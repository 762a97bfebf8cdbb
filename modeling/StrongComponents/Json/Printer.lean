import StrongComponents.Binary64.Decimal
import StrongComponents.Json.Basic

/-!
# Text of JSON values

A value is written token by token, and a layout says which blanks stand between the tokens:
none in `Json.text`, and in `Json.prettyText` a new line before each item and member.
-/

set_option autoImplicit false

namespace StrongComponents

/-- A character as it stands in a JSON string. Only the quotation mark, the backslash and the
characters below the space are escaped. -/
def Json.escapeChar (c : Char) : List Char :=
  if c = '"' then ['\\', '"']
  else if c = '\\' then ['\\', '\\']
  else if c = '\x08' then ['\\', 'b']
  else if c = '\t' then ['\\', 't']
  else if c = '\n' then ['\\', 'n']
  else if c = '\x0c' then ['\\', 'f']
  else if c = '\r' then ['\\', 'r']
  else if c.toNat < 0x20 then
    ['\\', 'u', '0', '0', Nat.digitChar (c.toNat / 16), Nat.digitChar (c.toNat % 16)]
  else [c]

/-- A text as a JSON string. -/
def Json.stringText (s : String) : List Char :=
  '"' :: s.toList.flatMap Json.escapeChar ++ ['"']

/-- The decimal text of an integer. -/
def intText (i : Int) : List Char :=
  if i < 0 then '-' :: Nat.toDigits 10 i.natAbs else Nat.toDigits 10 i.natAbs

namespace Number

/-- Floating-point numbers are written positionally from `0.00001` up to sixteen digits before the
point. -/
def style : Decimal.Style := ⟨-5, 15⟩

/-- The text of a number. -/
def text : Number → List Char
  | int i => intText i
  | float x => x.render style

end Number

/-- The text of a value without parts. -/
def Scalar.text : Scalar → List Char
  | null => "null".toList
  | bool true => "true".toList
  | bool false => "false".toList
  | number n => n.text
  | string s => Json.stringText s

namespace Json

/-- How the text of a value is spread out. -/
structure Layout where
  /-- What stands before an item, a member or a closing bracket that is this many levels deep. -/
  gap : Nat → List Char
  /-- What stands between a colon and the value after it. -/
  afterColon : List Char

namespace Layout

mutual

/-- The text of a value that stands `level` levels deep. An array or object without parts has no
gap in it. -/
def text (layout : Layout) (level : Nat) : Json → List Char
  | scalar s => s.text
  | array [] => ['[', ']']
  | array items => '[' :: layout.itemsText (level + 1) items ++ layout.gap level ++ [']']
  | object [] => ['\x7b', '\x7d']
  | object members =>
    '\x7b' :: layout.membersText (level + 1) members ++ layout.gap level ++ ['\x7d']

/-- The texts of the items with a comma after all but the last. -/
def itemsText (layout : Layout) (level : Nat) : List Json → List Char
  | [] => []
  | [item] => layout.gap level ++ layout.text level item
  | item :: next :: rest =>
    layout.gap level ++ layout.text level item ++ ',' :: layout.itemsText level (next :: rest)

/-- The texts of the members with a comma after all but the last. -/
def membersText (layout : Layout) (level : Nat) : List (String × Json) → List Char
  | [] => []
  | [(name, value)] =>
    layout.gap level ++ stringText name ++ ':' :: layout.afterColon ++ layout.text level value
  | (name, value) :: next :: rest =>
    layout.gap level ++ stringText name ++ ':' :: layout.afterColon ++ layout.text level value ++
      ',' :: layout.membersText level (next :: rest)

end

/-- No blank between the tokens. -/
def compact : Layout := ⟨fun _ => [], []⟩

/-- A new line that is indented by two blanks for each level. -/
def newLine (level : Nat) : List Char := '\n' :: List.replicate (2 * level) ' '

/-- One item or member a line. -/
def pretty : Layout := ⟨newLine, [' ']⟩

end Layout

/-- The characters of the text without blanks. -/
def compact (value : Json) : List Char := Layout.compact.text 0 value

/-- The text without blanks. -/
def text (value : Json) : String := String.ofList value.compact

/-- The text with one item or member a line. -/
def prettyText (value : Json) : String := String.ofList (Layout.pretty.text 0 value)

end Json

end StrongComponents
