/-!
# What can be wrong with a JSON text, and where

While a text is read, a place in it is a number of bytes from its start. An error that is shown to
somebody has a line and a column instead.
-/

set_option autoImplicit false

namespace StrongComponents

/-- Ways in which a text is not JSON. -/
inductive SyntaxError where
  | endInValue
  | valueExpected
  | wordExpected
  | endInList
  | listSeparatorExpected
  | endInObject
  | keyExpected
  | objectSeparatorExpected
  | colonExpected
  | trailingComma
  | trailingCharacters
  | invalidNumber
  | numberOutOfRange
  | endInString
  | controlCharacter
  | invalidEscape
  | loneSurrogate
  | endOfHexEscape
  | nestedTooDeep
deriving DecidableEq

/-- The wording of each error. -/
def SyntaxError.message : SyntaxError → String
  | endInValue => "EOF while parsing a value"
  | valueExpected => "expected value"
  | wordExpected => "expected ident"
  | endInList => "EOF while parsing a list"
  | listSeparatorExpected => "expected `,` or `]`"
  | endInObject => "EOF while parsing an object"
  | keyExpected => "key must be a string"
  | objectSeparatorExpected => "expected `,` or `\x7d`"
  | colonExpected => "expected `:`"
  | trailingComma => "trailing comma"
  | trailingCharacters => "trailing characters"
  | invalidNumber => "invalid number"
  | numberOutOfRange => "number out of range"
  | endInString => "EOF while parsing a string"
  | controlCharacter => "control character (\\u0000-\\u001F) found while parsing a string"
  | invalidEscape => "invalid escape"
  | loneSurrogate => "lone leading surrogate in hex escape"
  | endOfHexEscape => "unexpected end of hex escape"
  | nestedTooDeep => "recursion limit exceeded"

/-- A cause together with the number of bytes before the place it was noticed at. -/
structure Fault (ε : Type) where
  cause : ε
  offset : Nat
deriving DecidableEq

/-- The same place with another cause. -/
def Fault.map {ε ε' : Type} (f : ε → ε') (fault : Fault ε) :
    Fault ε' := ⟨f fault.cause, fault.offset⟩

/-- Text still to be read and the number of bytes before it. -/
structure Cursor where
  rest : List Char
  offset : Nat
deriving DecidableEq

/-- A place in a text: lines count from one, columns from zero and in bytes. -/
structure Location where
  line : Nat
  column : Nat
deriving DecidableEq

namespace Location

/-- The location `offset` bytes further on, where `text` is what follows the given location. -/
def advance : Location → List Char → Nat → Location
  | here, [], offset => ⟨here.line, here.column + offset⟩
  | here, c :: rest, offset =>
    if offset < c.utf8Size then ⟨here.line, here.column + offset⟩
    else if c = '\n' then advance ⟨here.line + 1, 0⟩ rest (offset - c.utf8Size)
    else advance ⟨here.line, here.column + c.utf8Size⟩ rest (offset - c.utf8Size)

/-- The location after the first `offset` bytes of a text. -/
def ofOffset (text : List Char) (offset : Nat) : Location := advance ⟨1, 0⟩ text offset

end Location

/-- A cause together with its place in the text. -/
structure ReadError (ε : Type) where
  cause : ε
  location : Location
deriving DecidableEq

namespace ReadError

/-- The error of a fault in a text. -/
def ofFault {ε : Type} (text : List Char) (fault : Fault ε) : ReadError ε :=
  ⟨fault.cause, Location.ofOffset text fault.offset⟩

/-- The wording of an error, given that of its cause. -/
def message {ε : Type} (wording : ε → String) (e : ReadError ε) : String :=
  s!"{wording e.cause} at line {e.location.line} column {e.location.column}"

end ReadError

end StrongComponents
