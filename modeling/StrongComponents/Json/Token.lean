import StrongComponents.Json.Numeral
import StrongComponents.Json.Quotation

/-!
# Tokens of a JSON text

`Token.scan` divides a text into tokens, each with the places where it starts and stops. The list
ends with the end of the text, or earlier with a token that goes wrong in itself.
-/

set_option autoImplicit false

namespace StrongComponents

/-- What a token is. -/
inductive Lexeme where
  | openArray
  | closeArray
  | openObject
  | closeObject
  | comma
  | colon
  | scalar (value : Scalar)
  /-- A character that starts no token. -/
  | unknown
  /-- A token that goes wrong; `quoted` tells whether it started as a string. -/
  | broken (quoted : Bool) (fault : Fault SyntaxError)
  | endOfText
deriving DecidableEq

/-- A token with the number of bytes before its start and before its end. -/
structure Token where
  lexeme : Lexeme
  start : Nat
  stop : Nat
deriving DecidableEq

namespace Token

/-- The place just after the first byte of a token; the end of the text has no byte. -/
def next (t : Token) : Nat :=
  match t.lexeme with
  | .endOfText => t.start
  | _ => t.start + 1

/-- The blanks that may stand between tokens. -/
def isBlank (c : Char) : Bool := c == ' ' || c == '\n' || c == '\t' || c == '\r'

/-- Takes the given letters one by one. -/
def readLetters : List Char → Cursor → Except (Fault SyntaxError) Cursor
  | [], cur => .ok cur
  | letter :: letters, cur =>
    match cur.rest with
    | [] => .error ⟨.endInValue, cur.offset⟩
    | c :: rest =>
      if c = letter then readLetters letters ⟨rest, cur.offset + 1⟩
      else .error ⟨.wordExpected, cur.offset + 1⟩

/-- A token that was read, or the fault in it. -/
inductive Lexed where
  | token (lexeme : Lexeme) (after : Cursor)
  | broken (quoted : Bool) (fault : Fault SyntaxError)

/-- The token that a reader gives. -/
def Lexed.ofResult {α : Type} (quoted : Bool) (lexeme : α → Lexeme) :
    Except (Fault SyntaxError) (α × Cursor) → Lexed
  | .ok (a, after) => .token (lexeme a) after
  | .error fault => .broken quoted fault

/-- The value named by a word whose first letter has been read. -/
def readWord (value : Scalar) (letters : String) (cur : Cursor) : Lexed :=
  .ofResult false (fun _ => .scalar value) ((readLetters letters.toList cur).map ((), ·))

/-- The tokens of one character. -/
def punctuation? (c : Char) : Option Lexeme :=
  if c = '[' then some .openArray
  else if c = ']' then some .closeArray
  else if c = '\x7b' then some .openObject
  else if c = '\x7d' then some .closeObject
  else if c = ',' then some .comma
  else if c = ':' then some .colon
  else none

/-- The value named by the word that starts with `c`, and the other letters of that word. -/
def word? (c : Char) : Option (Scalar × String) :=
  if c = 'n' then some (.null, "ull")
  else if c = 't' then some (.bool true, "rue")
  else if c = 'f' then some (.bool false, "alse")
  else none

/-- The token that starts with the character `c`, where `rest` follows it. -/
def lex (c : Char) (rest : List Char) (offset : Nat) : Lexed :=
  match punctuation? c with
  | some lexeme => .token lexeme ⟨rest, offset + 1⟩
  | none =>
    if c = '"' then
      .ofResult true (fun s => .scalar (.string s)) (Quotation.read ⟨rest, offset + 1⟩ [])
    else if c = '-' ∨ c.isDigit then
      .ofResult false (fun n => .scalar (.number n)) (Number.read ⟨c :: rest, offset⟩)
    else
      match word? c with
      | some (value, letters) => readWord value letters ⟨rest, offset + 1⟩
      | none => .token .unknown ⟨rest, offset + c.utf8Size⟩

theorem length_readLetters (letters : List Char) : ∀ {cur cur' : Cursor},
    readLetters letters cur = .ok cur' → cur'.rest.length ≤ cur.rest.length := by
  induction letters with
  | nil => intro cur cur' h; cases h; exact Nat.le_refl _
  | cons letter letters ih =>
      intro cur cur' h
      unfold readLetters at h
      split at h
      · cases h
      · rename_i heq
        split at h
        · have := ih h
          simp only [heq, List.length_cons] at this ⊢; omega
        · cases h

theorem length_readWord {value : Scalar} {letters : String} {cur cur' : Cursor} {l : Lexeme}
    (h : readWord value letters cur = .token l cur') : cur'.rest.length ≤ cur.rest.length := by
  unfold readWord at h
  cases hl : readLetters letters.toList cur with
  | error e => rw [hl] at h; cases h
  | ok cur1 => rw [hl] at h; cases h; exact length_readLetters _ hl

theorem exists_of_ofResult {α : Type} {quoted : Bool} {lexeme : α → Lexeme}
    {result : Except (Fault SyntaxError) (α × Cursor)} {l : Lexeme} {after : Cursor}
    (h : Lexed.ofResult quoted lexeme result = .token l after) : ∃ a, result = .ok (a, after) := by
  match result with
  | .error e => cases h
  | .ok (a, after') => cases h; exact ⟨a, rfl⟩

/-- A token takes at least the character that it starts with. -/
theorem length_lex {c : Char} {rest : List Char} {offset : Nat} {l : Lexeme} {after : Cursor}
    (h : lex c rest offset = .token l after) : after.rest.length ≤ rest.length := by
  unfold lex at h
  split at h
  · cases h; exact Nat.le_refl _
  · split at h
    · obtain ⟨s, hs⟩ := exists_of_ofResult h
      exact Nat.le_of_lt (Quotation.length_read _ _ hs)
    · split at h
      · obtain ⟨n, hn⟩ := exists_of_ofResult h
        exact Nat.le_of_lt_succ (Number.length_read hn)
      · split at h
        · exact length_readWord h
        · cases h; exact Nat.le_refl _

theorem length_rest_lt {cur : Cursor} {c : Char} {rest : List Char} (hrest : cur.rest = c :: rest) :
    rest.length < cur.rest.length := by
  rw [hrest]
  exact Nat.lt_succ_self rest.length

theorem length_lex_lt {cur after : Cursor} {c : Char} {rest : List Char} {l : Lexeme}
    (hrest : cur.rest = c :: rest) (h : lex c rest cur.offset = .token l after) :
    after.rest.length < cur.rest.length := by
  rw [hrest]
  exact Nat.lt_succ_of_le (length_lex h)

/-- The tokens of a text. -/
def scan (cur : Cursor) : List Token :=
  match hrest : cur.rest with
  | [] => [⟨.endOfText, cur.offset, cur.offset⟩]
  | c :: rest =>
    if isBlank c then
      have : rest.length < cur.rest.length := length_rest_lt hrest
      scan ⟨rest, cur.offset + 1⟩
    else
      match h : lex c rest cur.offset with
      | .broken quoted fault => [⟨.broken quoted fault, cur.offset, fault.offset⟩]
      | .token lexeme after =>
        have : after.rest.length < cur.rest.length := length_lex_lt hrest h
        ⟨lexeme, cur.offset, after.offset⟩ :: scan after
termination_by cur.rest.length

end Token

end StrongComponents
