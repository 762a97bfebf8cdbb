import StrongComponents.Json.Basic
import StrongComponents.Json.Fault

/-!
# Numbers in JSON texts

`Numeral.read` takes a number apart and `Numeral.value?` gives the number meant. A numeral
without fraction and exponent that fits into 64 bits is an integer. Any other is a
floating-point number: its leading digits are taken as a 64-bit integer, and the digits that no
longer fit only count for the exponent.
-/

set_option autoImplicit false

namespace StrongComponents

/-- The digits of a number as they stand in a text. -/
structure Numeral where
  negative : Bool
  whole : List Char
  fraction : Option (List Char)
  exponent : Option (Bool × List Char)
deriving DecidableEq

namespace Numeral

/-- The greatest unsigned integer of 64 bits. -/
def maxWord : Nat := 0xFFFFFFFFFFFFFFFF

/-- The greatest exponent that is read to its end. -/
def maxExponent : Nat := 0x7FFFFFFF

/-- The value of a decimal digit. -/
def digitValue (c : Char) : Nat := c.toNat - '0'.toNat

/-- Appends digits to a number while it fits into 64 bits, and gives the digits that are left. -/
def absorb (n : Nat) : List Char → Nat × List Char
  | [] => (n, [])
  | d :: digits =>
    let next := 10 * n + digitValue d
    if next ≤ maxWord then absorb next digits else (n, d :: digits)

/-- The exponent that is written, or zero. -/
def writtenExponent (n : Numeral) : Int :=
  match n.exponent with
  | none => 0
  | some (true, digits) => -(Nat.ofDigitChars 10 digits 0)
  | some (false, digits) => Nat.ofDigitChars 10 digits 0

/-- The number meant, unless it is past the greatest floating-point number. -/
def value? (n : Numeral) : Option Number :=
  let (leading, dropped) := absorb 0 n.whole
  if n.fraction.isNone ∧ n.exponent.isNone ∧ dropped = [] then
    if n.negative then
      if 0 < leading ∧ leading ≤ 0x8000000000000000 then some (.int (-leading))
      else (Binary64.ofDecimal true leading 0).map .float
    else some (.int leading)
  else
    let fraction := n.fraction.getD []
    let (digits, rest) := absorb leading fraction
    let kept := fraction.length - rest.length
    (Binary64.ofDecimal n.negative digits (dropped.length - kept + n.writtenExponent)).map .float

/-- The digits after the one with which an exponent passes the greatest that is read to its end. -/
def pastMaxExponent (n : Nat) : List Char → List Char
  | [] => []
  | d :: digits =>
    let next := 10 * n + digitValue d
    if next ≤ maxExponent then pastMaxExponent next digits else digits

/-- The digits of a numeral that stand after the place where it is seen to be out of range. -/
def unread (n : Numeral) : List Char :=
  match n.exponent with
  | none => []
  | some (_, digits) => pastMaxExponent 0 digits

/-- Takes the digits at the cursor. -/
def takeDigits (c : Cursor) : List Char × Cursor :=
  let digits := c.rest.takeWhile Char.isDigit
  (digits, ⟨c.rest.dropWhile Char.isDigit, c.offset + digits.length⟩)

/-- The sign. -/
def readSign (c : Cursor) : Bool × Cursor :=
  match c.rest with
  | '-' :: rest => (true, ⟨rest, c.offset + 1⟩)
  | _ => (false, c)

/-- The digits before the point. A zero is followed by no other digit. -/
def readWhole (c : Cursor) : Except (Fault SyntaxError) (List Char × Cursor) :=
  match c.rest with
  | [] => .error ⟨.endInValue, c.offset⟩
  | '0' :: d :: _ => if d.isDigit then .error ⟨.invalidNumber, c.offset + 2⟩ else .ok (takeDigits c)
  | d :: _ => if d.isDigit then .ok (takeDigits c) else .error ⟨.invalidNumber, c.offset + 1⟩

/-- The digits after the point, if there is a point. -/
def readFraction (c : Cursor) : Except (Fault SyntaxError) (Option (List Char) × Cursor) :=
  match c.rest with
  | ['.'] => .error ⟨.endInValue, c.offset + 1⟩
  | '.' :: d :: rest =>
    if d.isDigit then
      let (digits, c) := takeDigits ⟨d :: rest, c.offset + 1⟩
      .ok (some digits, c)
    else .error ⟨.invalidNumber, c.offset + 2⟩
  | _ => .ok (none, c)

/-- The sign and the digits of an exponent whose mark has been read. -/
def readExponentDigits (c : Cursor) :
    Except (Fault SyntaxError) (Option (Bool × List Char) × Cursor) :=
  let (negative, c) : Bool × Cursor :=
    match c.rest with
    | '-' :: rest => (true, ⟨rest, c.offset + 1⟩)
    | '+' :: rest => (false, ⟨rest, c.offset + 1⟩)
    | _ => (false, c)
  match c.rest with
  | [] => .error ⟨.endInValue, c.offset⟩
  | d :: _ =>
    if d.isDigit then
      let (digits, c) := takeDigits c
      .ok (some (negative, digits), c)
    else .error ⟨.invalidNumber, c.offset + 1⟩

/-- The exponent, if there is one. -/
def readExponent (c : Cursor) : Except (Fault SyntaxError) (Option (Bool × List Char) × Cursor) :=
  match c.rest with
  | 'e' :: rest => readExponentDigits ⟨rest, c.offset + 1⟩
  | 'E' :: rest => readExponentDigits ⟨rest, c.offset + 1⟩
  | _ => .ok (none, c)

/-- The numeral at the cursor. -/
def read (c : Cursor) : Except (Fault SyntaxError) (Numeral × Cursor) := do
  let (negative, c) := readSign c
  let (whole, c) ← readWhole c
  let (fraction, c) ← readFraction c
  let (exponent, c) ← readExponent c
  return (⟨negative, whole, fraction, exponent⟩, c)

theorem length_takeDigits (cur : Cursor) : (takeDigits cur).2.rest.length ≤ cur.rest.length := by
  simpa [takeDigits] using (List.dropWhile_sublist Char.isDigit (l := cur.rest)).length_le

theorem length_takeDigits_lt {cur : Cursor} {d : Char} {rest : List Char} (h : cur.rest = d :: rest)
    (hd : d.isDigit = true) : (takeDigits cur).2.rest.length < cur.rest.length := by
  have := (List.dropWhile_sublist Char.isDigit (l := rest)).length_le
  simp only [takeDigits, h, List.dropWhile_cons_of_pos hd, List.length_cons]; omega

theorem length_readSign (cur : Cursor) : (readSign cur).2.rest.length ≤ cur.rest.length := by
  unfold readSign
  split
  · rename_i heq; simp [heq]
  · exact Nat.le_refl _

theorem length_readWhole {cur cur' : Cursor} {digits : List Char}
    (h : readWhole cur = .ok (digits, cur')) : cur'.rest.length < cur.rest.length := by
  unfold readWhole at h
  split at h
  · cases h
  · rename_i heq
    split at h
    · cases h
    · have := length_takeDigits_lt heq (by decide)
      cases h; exact this
  · rename_i heq
    split at h
    · rename_i hd
      have := length_takeDigits_lt heq hd
      cases h; exact this
    · cases h

theorem length_readFraction {cur cur' : Cursor} {fraction : Option (List Char)}
    (h : readFraction cur = .ok (fraction, cur')) : cur'.rest.length ≤ cur.rest.length := by
  unfold readFraction at h
  split at h
  · cases h
  · rename_i d rest heq
    split at h
    · have := length_takeDigits ⟨d :: rest, cur.offset + 1⟩
      simp only [Except.ok.injEq, Prod.mk.injEq] at h
      rw [← h.2, heq]
      exact Nat.le_succ_of_le this
    · cases h
  · cases h; exact Nat.le_refl _

theorem length_readExponentDigits {cur cur' : Cursor} {exponent : Option (Bool × List Char)}
    (h : readExponentDigits cur = .ok (exponent, cur')) : cur'.rest.length ≤ cur.rest.length := by
  unfold readExponentDigits at h
  split at h
  rename_i negative signed heq
  have hsigned : signed.rest.length ≤ cur.rest.length := by
    split at heq
    · rename_i hr; cases heq; simp [hr]
    · rename_i hr; cases heq; simp [hr]
    · cases heq; exact Nat.le_refl _
  split at h
  · cases h
  · split at h
    · have := length_takeDigits signed
      cases h
      exact Nat.le_trans this hsigned
    · cases h

theorem length_readExponent {cur cur' : Cursor} {exponent : Option (Bool × List Char)}
    (h : readExponent cur = .ok (exponent, cur')) : cur'.rest.length ≤ cur.rest.length := by
  unfold readExponent at h
  split at h
  · rename_i heq
    have := length_readExponentDigits h
    simp only [heq, List.length_cons] at this ⊢; omega
  · rename_i heq
    have := length_readExponentDigits h
    simp only [heq, List.length_cons] at this ⊢; omega
  · cases h; exact Nat.le_refl _

theorem length_read {cur cur' : Cursor} {n : Numeral} (h : read cur = .ok (n, cur')) :
    cur'.rest.length < cur.rest.length := by
  unfold read at h
  have hsign := length_readSign cur
  simp only [bind, Except.bind] at h
  split at h
  · cases h
  · rename_i p hwhole
    have l1 := length_readWhole hwhole
    split at h
    · cases h
    · rename_i q hfraction
      have l2 := length_readFraction hfraction
      split at h
      · cases h
      · rename_i r hexponent
        have l3 := length_readExponent hexponent
        cases h
        omega

end Numeral

/-- The number at the cursor. -/
def Number.read (c : Cursor) : Except (Fault SyntaxError) (Number × Cursor) := do
  let (numeral, c) ← Numeral.read c
  match numeral.value? with
  | some n => return (n, c)
  | none => throw ⟨.numberOutOfRange, c.offset - numeral.unread.length⟩

theorem Number.length_read {cur cur' : Cursor} {n : Number} (h : Number.read cur = .ok (n, cur')) :
    cur'.rest.length < cur.rest.length := by
  unfold Number.read at h
  simp only [bind, Except.bind] at h
  split at h
  · cases h
  · rename_i p hread
    have := Numeral.length_read hread
    split at h
    · cases h; exact this
    · cases h

end StrongComponents
