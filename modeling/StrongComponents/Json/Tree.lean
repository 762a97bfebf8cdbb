import StrongComponents.Json.Token

/-!
# JSON texts as trees

A text is read into a tree that keeps the order of all members and the places of all parts.
Where the text is no JSON, the tree ends with the first fault, and it still holds everything
before it. A function that expects certain values somewhere thus meets unexpected values and
faults in the order of the text.
-/

set_option autoImplicit false

namespace StrongComponents

/-- The name of a member. `stop` is the place after the blanks that follow it, and after the closing
brace if that comes next. -/
structure Key where
  name : String
  stop : Nat
deriving DecidableEq

/-- What was read of a value. An array or object with a fault ends there, whatever comes after.
With an item stands the place after the bracket or comma that ends it, and after the blanks
that follow such a comma. -/
inductive Tree where
  | scalar (value : Scalar) (stop : Nat)
  | array (start : Nat) (items : List (Tree × Nat)) (fault : Option (Fault SyntaxError))
  | object (start : Nat) (members : List (Key × Tree)) (fault : Option (Fault SyntaxError))
  | broken (fault : Fault SyntaxError)

namespace Tree

/-- An array or object that waits for the value of its next item or member. The parts read
before are in reverse order. -/
inductive Pending where
  | item (start : Nat) (items : List (Tree × Nat))
  | member (start : Nat) (members : List (Key × Tree)) (key : Key)

/-- What is due next, inside the values that wait, innermost first. -/
inductive State where
  | value (outer : List Pending)
  | item (isFirst : Bool) (start : Nat) (items : List (Tree × Nat)) (outer : List Pending)
  | key (isFirst : Bool) (start : Nat) (members : List (Key × Tree)) (outer : List Pending)
  | colon (start : Nat) (members : List (Key × Tree)) (key : Key) (outer : List Pending)
  | separator (tree : Tree) (outer : List Pending)

/-- The whole tree when the fault ends it inside `tree`. -/
def abandon (fault : Fault SyntaxError) (tree : Tree) : List Pending → Tree
  | [] => tree
  | .item start items :: outer =>
    abandon fault (array start ((tree, fault.offset) :: items).reverse (some fault)) outer
  | .member start members key :: outer =>
    abandon fault (object start ((key, tree) :: members).reverse (some fault)) outer

/-- What a token leads to. -/
inductive Progress where
  | running (next : State)
  | halted (tree : Tree)

/-- The value ends before it starts. -/
def noValue (cause : SyntaxError) (t : Token) (outer : List Pending) : Progress :=
  let fault : Fault SyntaxError := ⟨cause, t.next⟩
  .halted (abandon fault (broken fault) outer)

/-- The array ends before its next item or separator. -/
def cutArray (cause : SyntaxError) (t : Token) (start : Nat) (items : List (Tree × Nat))
    (outer : List Pending) : Progress :=
  let fault : Fault SyntaxError := ⟨cause, t.next⟩
  .halted (abandon fault (array start items.reverse (some fault)) outer)

/-- The object ends before its next name or separator. -/
def cutObject (cause : SyntaxError) (t : Token) (start : Nat) (members : List (Key × Tree))
    (outer : List Pending) : Progress :=
  let fault : Fault SyntaxError := ⟨cause, t.next⟩
  .halted (abandon fault (object start members.reverse (some fault)) outer)

/-- Brackets may be nested less deep than this. -/
def nestingLimit : Nat := 128

/-- A value starts with the token `t`. -/
def startValue (t : Token) (outer : List Pending) : Progress :=
  match t.lexeme with
  | .scalar value => .running (.separator (scalar value t.stop) outer)
  | .openArray =>
    if outer.length + 1 < nestingLimit then .running (.item true t.start [] outer)
    else noValue .nestedTooDeep t outer
  | .openObject =>
    if outer.length + 1 < nestingLimit then .running (.key true t.start [] outer)
    else noValue .nestedTooDeep t outer
  | .broken _ fault => .halted (abandon fault (broken fault) outer)
  | .endOfText => noValue .endInValue t outer
  | _ => noValue .valueExpected t outer

/-- The next item of an array, or its end, starts with the token `t`. -/
def startItem (isFirst : Bool) (t : Token) (start : Nat) (items : List (Tree × Nat))
    (outer : List Pending) : Progress :=
  match t.lexeme with
  | .closeArray =>
    if isFirst then .running (.separator (array start [] none) outer)
    else cutArray .trailingComma t start items outer
  | .endOfText =>
    cutArray (if isFirst then .endInList else .endInValue) t start items outer
  | _ => startValue t (.item start items :: outer)

/-- The next name of an object, or its end, is the token `t`, and the token
`following` comes after it. -/
def startKey (isFirst : Bool) (t following : Token) (start : Nat) (members : List (Key × Tree))
    (outer : List Pending) : Progress :=
  match t.lexeme with
  | .closeObject =>
    if isFirst then .running (.separator (object start [] none) outer)
    else cutObject .trailingComma t start members outer
  | .endOfText =>
    cutObject (if isFirst then .endInObject else .endInValue) t start members outer
  | .scalar (.string name) =>
    let stop := if following.lexeme = .closeObject then following.stop else following.start
    .running (.colon start members ⟨name, stop⟩ outer)
  | .broken true fault => .halted (abandon fault (object start members.reverse (some fault)) outer)
  | _ => cutObject .keyExpected t start members outer

/-- The token `t` stands after the name of a member. -/
def readColon (t : Token) (start : Nat) (members : List (Key × Tree)) (key : Key)
    (outer : List Pending) : Progress :=
  match t.lexeme with
  | .colon => .running (.value (.member start members key :: outer))
  | .endOfText => noValue .endInObject t (.member start members key :: outer)
  | _ => noValue .colonExpected t (.member start members key :: outer)

/-- The token `t` stands after an item of an array, and the token `following` comes after it. -/
def readItemEnd (t following : Token) (tree : Tree) (start : Nat) (items : List (Tree × Nat))
    (outer : List Pending) : Progress :=
  match t.lexeme with
  | .closeArray => .running (.separator (array start ((tree, t.stop) :: items).reverse none) outer)
  | .comma => .running (.item false start ((tree, following.start) :: items) outer)
  | .endOfText => cutArray .endInList t start ((tree, t.start) :: items) outer
  | _ => cutArray .listSeparatorExpected t start ((tree, t.start) :: items) outer

/-- The token `t` stands after a member of an object. -/
def readMemberEnd (t : Token) (tree : Tree) (start : Nat) (members : List (Key × Tree)) (key : Key)
    (outer : List Pending) : Progress :=
  match t.lexeme with
  | .closeObject => .running (.separator (object start ((key, tree) :: members).reverse none) outer)
  | .comma => .running (.key false start ((key, tree) :: members) outer)
  | .endOfText => cutObject .endInObject t start ((key, tree) :: members) outer
  | _ => cutObject .objectSeparatorExpected t start ((key, tree) :: members) outer

/-- Takes the token `t`, which the token `following` comes after. A finished tree takes no token. -/
def step (state : State) (t following : Token) : Progress :=
  match state with
  | .value outer => startValue t outer
  | .item isFirst start items outer => startItem isFirst t start items outer
  | .key isFirst start members outer => startKey isFirst t following start members outer
  | .colon start members key outer => readColon t start members key outer
  | .separator tree [] => .halted tree
  | .separator tree (.item start items :: outer) => readItemEnd t following tree start items outer
  | .separator tree (.member start members key :: outer) =>
    readMemberEnd t tree start members key outer

/-- The first of some tokens, or the end of the text if there is none. -/
def following (t : Token) : List Token → Token
  | [] => ⟨.endOfText, t.stop, t.stop⟩
  | next :: _ => next

/-- The tree that the tokens give, and the tokens after it. -/
def read : State → List Token → Tree × List Token
  | .separator tree [], tokens => (tree, tokens)
  | _, [] => (broken ⟨.endInValue, 0⟩, [])
  | state, t :: rest =>
    match step state t (following t rest) with
    | .running next => read next rest
    | .halted tree => (tree, [])

mutual

/-- The value that was read, or the first fault. Of members with one name the last one stays. -/
def toJson : Tree → Except (Fault SyntaxError) Json
  | scalar value _ => .ok (.scalar value)
  | array _ items fault =>
    match itemsToJson items, fault with
    | .error e, _ => .error e
    | .ok _, some e => .error e
    | .ok values, none => .ok (.array values)
  | object _ members fault =>
    match membersToJson members, fault with
    | .error e, _ => .error e
    | .ok _, some e => .error e
    | .ok values, none => .ok (.object (Json.sortMembers values))
  | broken fault => .error fault

/-- The values of some items, or the first fault in them. -/
def itemsToJson : List (Tree × Nat) → Except (Fault SyntaxError) (List Json)
  | [] => .ok []
  | (tree, _) :: rest =>
    match tree.toJson with
    | .error e => .error e
    | .ok value => (itemsToJson rest).map (value :: ·)

/-- The values of some members, or the first fault in them. -/
def membersToJson : List (Key × Tree) → Except (Fault SyntaxError) (List (String × Json))
  | [] => .ok []
  | (key, tree) :: rest =>
    match tree.toJson with
    | .error e => .error e
    | .ok value => (membersToJson rest).map ((key.name, value) :: ·)

end

end Tree

/-- A whole text: its value, and the fault that something else comes after it. -/
structure TextTree where
  root : Tree
  trailing : Option (Fault SyntaxError)

namespace TextTree

/-- Reads a text. -/
def ofText (text : List Char) : TextTree :=
  match Tree.read (.value []) (Token.scan ⟨text, 0⟩) with
  | (root, []) => ⟨root, none⟩
  | (root, t :: _) =>
    ⟨root, if t.lexeme = .endOfText then none else some ⟨.trailingCharacters, t.next⟩⟩

/-- Applies a reader to the value; only when it succeeds does it matter what comes after the
value. -/
def interpret {ε α : Type} (read : Tree → Except (Fault ε) α) (syntaxError : SyntaxError → ε)
    (t : TextTree) : Except (Fault ε) α :=
  match read t.root, t.trailing with
  | .error e, _ => .error e
  | .ok _, some e => .error (e.map syntaxError)
  | .ok a, none => .ok a

end TextTree

/-- The JSON value of a text. -/
def Json.parse (text : String) : Except (ReadError SyntaxError) Json :=
  let chars := text.toList
  ((TextTree.ofText chars).interpret Tree.toJson id).mapError (ReadError.ofFault chars)

end StrongComponents
