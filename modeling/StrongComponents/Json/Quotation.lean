import StrongComponents.Json.Fault

/-!
# Strings in JSON texts

`Quotation.read` reads a string up to its closing quotation mark. A character outside the
basic plane may be written as two escapes, one for each half of its surrogate pair; a half
that stands alone is refused.
-/

set_option autoImplicit false

namespace StrongComponents.Quotation

/-- The value of a hexadecimal digit. -/
def hexValue? (c : Char) : Option Nat :=
  if '0' ≤ c ∧ c ≤ '9' then some (c.toNat - '0'.toNat)
  else if 'a' ≤ c ∧ c ≤ 'f' then some (c.toNat - 'a'.toNat + 10)
  else if 'A' ≤ c ∧ c ≤ 'F' then some (c.toNat - 'A'.toNat + 10)
  else none

/-- The value of four hexadecimal digits. -/
def hexValue4? (a b c d : Char) : Option Nat := do
  return (((← hexValue? a) * 16 + (← hexValue? b)) * 16 + (← hexValue? c)) * 16 + (← hexValue? d)

/-- Number of bytes of a text. -/
def byteLength (text : List Char) : Nat := text.foldl (fun bytes c => bytes + c.utf8Size) 0

/-- Four hexadecimal digits. Four bytes are taken whatever they hold. -/
def readHex4 (cur : Cursor) : Except (Fault SyntaxError) (Nat × Cursor) :=
  match cur.rest with
  | a :: b :: c :: d :: rest =>
    match hexValue4? a b c d with
    | some n => .ok (n, ⟨rest, cur.offset + 4⟩)
    | none => .error ⟨.invalidEscape, cur.offset + 4⟩
  | few =>
    if byteLength few < 4 then .error ⟨.endInString, cur.offset + byteLength few⟩
    else .error ⟨.invalidEscape, cur.offset + 4⟩

/-- First halves of surrogate pairs. -/
def isHighSurrogate (n : Nat) : Bool := 0xD800 ≤ n && n ≤ 0xDBFF

/-- Second halves of surrogate pairs. -/
def isLowSurrogate (n : Nat) : Bool := 0xDC00 ≤ n && n ≤ 0xDFFF

/-- The character of a surrogate pair. -/
def joinSurrogates (high low : Nat) : Char :=
  Char.ofNat (0x10000 + (high - 0xD800) * 0x400 + (low - 0xDC00))

/-- Takes the character `c`, which has to come next within an escape. -/
def expect (c : Char) (cur : Cursor) : Except (Fault SyntaxError) Cursor :=
  match cur.rest with
  | [] => .error ⟨.endInString, cur.offset⟩
  | d :: rest =>
      if d = c then .ok ⟨rest, cur.offset + 1⟩ else .error ⟨.endOfHexEscape, cur.offset + 1⟩

/-- The character given by its number, after the mark of such an escape. -/
def readNumbered (cur : Cursor) : Except (Fault SyntaxError) (Char × Cursor) := do
  let (high, cur) ← readHex4 cur
  if isLowSurrogate high then throw ⟨.loneSurrogate, cur.offset⟩
  else if isHighSurrogate high then
    let cur ← expect '\\' cur
    let cur ← expect 'u' cur
    let (low, cur) ← readHex4 cur
    if isLowSurrogate low then return (joinSurrogates high low, cur)
    else throw ⟨.loneSurrogate, cur.offset⟩
  else return (Char.ofNat high, cur)

/-- The character that an escape of one letter stands for. -/
def namedEscape? (c : Char) : Option Char :=
  if c = '"' then some '"'
  else if c = '\\' then some '\\'
  else if c = '/' then some '/'
  else if c = 'b' then some '\x08'
  else if c = 'f' then some '\x0c'
  else if c = 'n' then some '\n'
  else if c = 'r' then some '\r'
  else if c = 't' then some '\t'
  else none

/-- The character of an escape whose backslash has been read. -/
def readEscape (cur : Cursor) : Except (Fault SyntaxError) (Char × Cursor) :=
  match cur.rest with
  | [] => .error ⟨.endInString, cur.offset⟩
  | c :: rest =>
    match namedEscape? c with
    | some e => .ok (e, ⟨rest, cur.offset + 1⟩)
    | none =>
      if c = 'u' then readNumbered ⟨rest, cur.offset + 1⟩
      else .error ⟨.invalidEscape, cur.offset + 1⟩

theorem length_readHex4 {cur cur' : Cursor} {n : Nat} (h : readHex4 cur = .ok (n, cur')) :
    cur'.rest.length < cur.rest.length := by
  unfold readHex4 at h
  split at h
  · rename_i heq
    split at h
    · cases h; simp [heq]; omega
    · cases h
  · split at h <;> cases h

theorem length_expect {c : Char} {cur cur' : Cursor} (h : expect c cur = .ok cur') :
    cur'.rest.length < cur.rest.length := by
  unfold expect at h
  split at h
  · cases h
  · rename_i heq
    split at h
    · cases h; simp [heq]
    · cases h

theorem length_readNumbered {cur cur' : Cursor} {c : Char} (h : readNumbered cur = .ok (c, cur')) :
    cur'.rest.length < cur.rest.length := by
  unfold readNumbered at h
  cases h1 : readHex4 cur with
  | error e => rw [h1] at h; cases h
  | ok p =>
      obtain ⟨high, cur1⟩ := p
      have l1 := length_readHex4 h1
      rw [h1] at h
      simp only [bind, Except.bind] at h
      split at h
      · cases h
      · split at h
        · cases h2 : expect '\\' cur1 with
          | error e => rw [h2] at h; cases h
          | ok cur2 =>
              rw [h2] at h
              have l2 := length_expect h2
              cases h3 : expect 'u' cur2 with
              | error e => simp only [h3] at h; cases h
              | ok cur3 =>
                  have l3 := length_expect h3
                  cases h4 : readHex4 cur3 with
                  | error e => simp only [h3, h4] at h; cases h
                  | ok q =>
                      obtain ⟨low, cur4⟩ := q
                      have l4 := length_readHex4 h4
                      simp only [h3, h4] at h
                      split at h
                      · simp only [pure, Except.pure, Except.ok.injEq, Prod.mk.injEq] at h
                        rw [← h.2]; omega
                      · cases h
        · simp only [pure, Except.pure, Except.ok.injEq, Prod.mk.injEq] at h
          rw [← h.2]; exact l1

theorem length_readEscape {cur cur' : Cursor} {c : Char} (h : readEscape cur = .ok (c, cur')) :
    cur'.rest.length < cur.rest.length := by
  unfold readEscape at h
  split at h
  · cases h
  · rename_i heq
    split at h
    · cases h; simp [heq]
    · split at h
      · have := length_readNumbered h
        simp only [heq, List.length_cons] at this ⊢; omega
      · cases h

/-- The rest of a string whose opening quotation mark has been read; `before` holds what was read of
it, last character first. -/
def read (cur : Cursor) (before : List Char) : Except (Fault SyntaxError) (String × Cursor) :=
  match hrest : cur.rest with
  | [] => .error ⟨.endInString, cur.offset⟩
  | c :: rest =>
    if c = '"' then .ok (String.ofList before.reverse, ⟨rest, cur.offset + 1⟩)
    else if c = '\\' then
      match h : readEscape ⟨rest, cur.offset + 1⟩ with
      | .error fault => .error fault
      | .ok (e, cur') =>
        have : cur'.rest.length < cur.rest.length := by
          have := length_readEscape h
          simp only [hrest, List.length_cons] at this ⊢; omega
        read cur' (e :: before)
    else if c.toNat < 0x20 then .error ⟨.controlCharacter, cur.offset + 1⟩
    else
      have : rest.length < cur.rest.length := by simp [hrest]
      read ⟨rest, cur.offset + c.utf8Size⟩ (c :: before)
termination_by cur.rest.length

theorem length_read (cur : Cursor) (before : List Char) :
    ∀ {s : String} {cur' : Cursor}, read cur before = .ok (s, cur') →
      cur'.rest.length < cur.rest.length := by
  fun_induction read cur before with
  | case1 => intro s cur' h; cases h
  | case2 cur before rest hrest => intro s cur' h; cases h; simp [hrest]
  | case3 => intro s cur' h; cases h
  | case4 cur before rest e cur1 _ _ _ hlt ih =>
      intro s cur' h
      exact Nat.lt_trans (ih h) hlt
  | case5 => intro s cur' h; cases h
  | case6 cur before c rest _ _ _ _ hlt ih =>
      intro s cur' h
      exact Nat.lt_trans (ih h) hlt

end StrongComponents.Quotation
