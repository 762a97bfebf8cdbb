import StrongComponents.Text.GraphemeExtend
import StrongComponents.Text.Ignorable
import StrongComponents.Text.Unprintable

/-!
# Quoted text in messages

A message quotes a text so that every character of it can be seen: a character without a shape of
its own is replaced by an escape sequence.
-/

set_option autoImplicit false

namespace StrongComponents.Text

/-- The two halfwidth sound marks: letters that attach to the one before and still
take a place of their own. -/
def isSoundMark (c : Char) : Bool := c == '\uff9e' || c == '\uff9f'

/-- Whether a character would not be seen by itself. -/
def isHidden (c : Char) : Bool :=
  isUnprintable c || isIgnorable c || (isGraphemeExtend c && !isSoundMark c)

/-- A character as it stands in a quoted text. -/
def quoteChar (c : Char) : List Char :=
  if c = '"' then ['\\', '"']
  else if c = '\\' then ['\\', '\\']
  else if c = '\x00' then ['\\', '0']
  else if c = '\t' then ['\\', 't']
  else if c = '\n' then ['\\', 'n']
  else if c = '\r' then ['\\', 'r']
  else if isHidden c then
    ['\\', 'u', '\x7b'] ++ Nat.toDigits 16 c.toNat ++ ['\x7d']
  else [c]

/-- A quoted text without its quotation marks. -/
def quoteBody (s : String) : String := String.ofList (s.toList.flatMap quoteChar)

/-- A text between quotation marks. -/
def quote (s : String) : String := "\"" ++ quoteBody s ++ "\""

end StrongComponents.Text
