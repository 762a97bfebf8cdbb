import StrongComponents.Graph.Error
import StrongComponents.Json.Numeral
import StrongComponents.Json.Printer
import Mathlib.Data.List.Permutation
import Mathlib.Data.List.TakeWhile

/-!
# Reading numbers back

A number ends at the first character that cannot belong to it. So what a number is read as at the
end of a text it is read as in front of a comma, a closing bracket or a blank (`Number.local_read`).
An integer of 64 bits is read back from its decimal text (`Number.Readable.readBack`). Not every
floating-point number is: its text may be read as one of its neighbours.
-/

set_option autoImplicit false

namespace StrongComponents

/-! ## Readers in front of a delimiter -/

/-- The text does not go on with a character that can belong to a number. -/
def Delimited (rest : List Char) : Prop :=
  ∀ c ∈ rest.head?, c.isDigit = false ∧ c ∉ ['-', '+', '.', 'e', 'E']

theorem delimited_nil : Delimited [] := by
  simp [Delimited]

theorem delimited_cons {c : Char} (h : c.isDigit = false ∧ c ∉ ['-', '+', '.', 'e', 'E'])
    (rest : List Char) : Delimited (c :: rest) := by
  simpa [Delimited] using h

/-- A reader that finds the same in front of a delimiter as at the end of a text. -/
structure Local {α : Type} (reader : Cursor → Except (Fault SyntaxError) (α × Cursor)) : Prop where
  append : ∀ {text left : List Char} {offset stop : Nat} {a : α},
    reader ⟨text, offset⟩ = .ok (a, ⟨left, stop⟩) →
    ∀ rest offset', Delimited rest →
      ∃ stop', reader ⟨text ++ rest, offset'⟩ = .ok (a, ⟨left ++ rest, stop'⟩)

namespace Local

variable {α β : Type} {reader : Cursor → Except (Fault SyntaxError) (α × Cursor)}

/-- Two such readers in a row. -/
theorem bind {next : α → Cursor → Except (Fault SyntaxError) (β × Cursor)} (h : Local reader)
    (hnext : ∀ a, Local (next a)) : Local fun c => reader c >>= fun p => next p.1 p.2 := by
  constructor
  intro text left offset stop b hread rest offset' hrest
  obtain ⟨⟨a, middle, stop₁⟩, hfirst, hsecond⟩ := bind_eq_ok_iff.1 hread
  obtain ⟨stop₂, hfirst'⟩ := h.append hfirst rest offset' hrest
  obtain ⟨stop₃, hsecond'⟩ := (hnext a).append hsecond rest stop₂ hrest
  exact ⟨stop₃, bind_eq_ok_iff.2 ⟨_, hfirst', hsecond'⟩⟩

theorem ok (a : α) : Local fun c => .ok (a, c) := by
  constructor
  intro text left offset stop a' h rest offset' _
  cases h
  exact ⟨offset', rfl⟩

end Local

/-! ## Parts of a numeral -/

namespace Numeral

theorem takeDigits_append {rest : List Char} (hrest : Delimited rest) (text : List Char)
    (offset offset' : Nat) :
    ∃ stop, takeDigits ⟨text ++ rest, offset'⟩ =
      ((takeDigits ⟨text, offset⟩).1, ⟨(takeDigits ⟨text, offset⟩).2.rest ++ rest, stop⟩) := by
  have hsplit : (text ++ rest).takeWhile Char.isDigit = text.takeWhile Char.isDigit ∧
      (text ++ rest).dropWhile Char.isDigit = text.dropWhile Char.isDigit ++ rest := by
    induction text with
    | nil =>
        cases rest with
        | nil => exact ⟨rfl, rfl⟩
        | cons c rest => simp [(hrest c rfl).1]
    | cons c text ih =>
        by_cases hc : c.isDigit = true
        · simp [hc, ih]
        · simp [hc]
  exact ⟨_, by rw [takeDigits, hsplit.1, hsplit.2]; rfl⟩

theorem local_takeDigits : Local fun c => .ok (takeDigits c) := by
  constructor
  intro text left offset stop digits h rest offset' hrest
  obtain ⟨stop', htake⟩ := takeDigits_append hrest text offset offset'
  rw [Except.ok.inj h] at htake
  exact ⟨stop', congrArg _ htake⟩

/-- A delimiter starts nothing that belongs to a number. -/
theorem append_ne_cons {text rest : List Char} {c : Char} (hrest : Delimited rest)
    (hc : c ∈ ['-', '+', '.', 'e', 'E']) (htext : ∀ tail, text ≠ c :: tail) (tail : List Char) :
    text ++ rest ≠ c :: tail := by
  cases text with
  | cons d text =>
      rintro ⟨⟩
      exact htext text rfl
  | nil =>
      rintro rfl
      exact (hrest c rfl).2 hc

theorem readSign_of_ne {text : List Char} (h : ∀ tail, text ≠ '-' :: tail) (offset : Nat) :
    readSign ⟨text, offset⟩ = (false, ⟨text, offset⟩) := by
  unfold readSign
  split
  · rename_i tail htext
    exact absurd htext (h tail)
  · rfl

theorem local_readSign : Local fun c => .ok (readSign c) := by
  constructor
  intro text left offset stop negative h rest offset' hrest
  by_cases hminus : ∃ tail, text = '-' :: tail
  · obtain ⟨tail, rfl⟩ := hminus
    cases h
    exact ⟨_, rfl⟩
  · have hne : ∀ tail, text ≠ '-' :: tail := fun tail h => hminus ⟨tail, h⟩
    rw [readSign_of_ne hne] at h
    cases h
    rw [readSign_of_ne (append_ne_cons hrest (by decide) hne)]
    exact ⟨_, rfl⟩

/-- A digit starts the digits before the point, unless it is a zero with another digit after it. -/
theorem readWhole_cons (c : Char) (text : List Char) (offset : Nat) :
    readWhole ⟨c :: text, offset⟩ =
      if c = '0' ∧ text.head?.any Char.isDigit then .error ⟨.invalidNumber, offset + 2⟩
      else if c.isDigit then .ok (takeDigits ⟨c :: text, offset⟩)
      else .error ⟨.invalidNumber, offset + 1⟩ := by
  unfold readWhole
  split
  · rename_i h
    cases h
  · rename_i d rest h
    cases h
    by_cases hd : d.isDigit = true
    · simp [hd]
    · simp [hd]
  · rename_i d rest hzero h
    cases h
    have hnot : ¬ (c = '0' ∧ text.head?.any Char.isDigit = true) := by
      rintro ⟨rfl, hdigit⟩
      cases text with
      | nil => cases hdigit
      | cons d text => exact hzero d text rfl rfl
    rw [if_neg hnot]

theorem local_readWhole : Local readWhole := by
  constructor
  intro text left offset stop digits h rest offset' hrest
  cases text with
  | nil => cases h
  | cons c text =>
      -- What comes after a zero matters, and behind the last character of the text that is the
      -- delimiter.
      have hhead : (text ++ rest).head?.any Char.isDigit = text.head?.any Char.isDigit := by
        cases text with
        | cons d text => rfl
        | nil =>
            cases rest with
            | nil => rfl
            | cons d rest => simp [(hrest d rfl).1]
      rw [List.cons_append, readWhole_cons, hhead]
      rw [readWhole_cons] at h
      split at h
      · cases h
      rename_i hzero
      split at h
      · rename_i hc
        rw [if_neg hzero, if_pos hc]
        exact local_takeDigits.append h rest offset' hrest
      · cases h

theorem readFraction_of_ne {text : List Char} (h : ∀ tail, text ≠ '.' :: tail) (offset : Nat) :
    readFraction ⟨text, offset⟩ = .ok (none, ⟨text, offset⟩) := by
  unfold readFraction
  split
  · rename_i htext
    exact absurd htext (h [])
  · rename_i d tail htext
    exact absurd htext (h _)
  · rfl

theorem local_readFraction : Local readFraction := by
  constructor
  intro text left offset stop fraction h rest offset' hrest
  by_cases hpoint : ∃ tail, text = '.' :: tail
  · obtain ⟨_ | ⟨d, tail⟩, rfl⟩ := hpoint
    · cases h
    · by_cases hd : d.isDigit = true
      · have hdigits : ∀ tail offset, readFraction ⟨'.' :: d :: tail, offset⟩ =
            (.ok (takeDigits ⟨d :: tail, offset + 1⟩) : Except (Fault SyntaxError) _) >>= fun p =>
            .ok (some p.1, p.2) := by
          intro tail offset
          simp only [readFraction, hd, if_true]
          rfl
        rw [hdigits] at h
        rw [List.cons_append, List.cons_append, hdigits]
        exact (local_takeDigits.bind fun digits => Local.ok (some digits)).append h rest
          (offset' + 1) hrest
      · simp [readFraction, hd] at h
  · -- Without a point there is no fraction, and no delimiter brings one.
    have hne : ∀ tail, text ≠ '.' :: tail := fun tail h => hpoint ⟨tail, h⟩
    rw [readFraction_of_ne hne] at h
    cases h
    exact ⟨_, readFraction_of_ne (append_ne_cons hrest (by decide) hne) offset'⟩

/-- The digits of an exponent whose sign has been read. -/
def exponentDigits (negative : Bool) (c : Cursor) :
    Except (Fault SyntaxError) (Option (Bool × List Char) × Cursor) :=
  match c.rest with
  | [] => .error ⟨.endInValue, c.offset⟩
  | d :: _ =>
    if d.isDigit then .ok (takeDigits c) >>= fun p => .ok (some (negative, p.1), p.2)
    else .error ⟨.invalidNumber, c.offset + 1⟩

theorem local_exponentDigits (negative : Bool) : Local (exponentDigits negative) := by
  constructor
  intro text left offset stop exponent h rest offset' hrest
  cases text with
  | nil => cases h
  | cons d text =>
      by_cases hd : d.isDigit = true
      · simp only [exponentDigits, List.cons_append, hd, if_true] at h ⊢
        exact (local_takeDigits.bind fun digits => Local.ok (some (negative, digits))).append h rest
          offset' hrest
      · simp [exponentDigits, hd] at h

theorem readExponentDigits_of_ne {text : List Char} (h : ∀ tail, text ≠ '-' :: tail)
    (h' : ∀ tail, text ≠ '+' :: tail) (offset : Nat) :
    readExponentDigits ⟨text, offset⟩ = exponentDigits false ⟨text, offset⟩ := by
  unfold readExponentDigits
  split
  rename_i negative c hsigned
  split at hsigned
  · rename_i tail htext
    exact absurd htext (h tail)
  · rename_i tail htext
    exact absurd htext (h' tail)
  · cases hsigned
    rfl

theorem local_readExponentDigits : Local readExponentDigits := by
  constructor
  intro text left offset stop exponent h rest offset' hrest
  by_cases hsign : ∃ tail, text = '-' :: tail ∨ text = '+' :: tail
  · obtain ⟨tail, rfl | rfl⟩ := hsign
    · exact (local_exponentDigits true).append h rest (offset' + 1) hrest
    · exact (local_exponentDigits false).append h rest (offset' + 1) hrest
  · have hminus : ∀ tail, text ≠ '-' :: tail := fun tail h => hsign ⟨tail, .inl h⟩
    have hplus : ∀ tail, text ≠ '+' :: tail := fun tail h => hsign ⟨tail, .inr h⟩
    rw [readExponentDigits_of_ne hminus hplus] at h
    rw [readExponentDigits_of_ne (append_ne_cons hrest (by decide) hminus)
      (append_ne_cons hrest (by decide) hplus)]
    exact (local_exponentDigits false).append h rest offset' hrest

theorem readExponent_of_ne {text : List Char} (h : ∀ tail, text ≠ 'e' :: tail)
    (h' : ∀ tail, text ≠ 'E' :: tail) (offset : Nat) :
    readExponent ⟨text, offset⟩ = .ok (none, ⟨text, offset⟩) := by
  unfold readExponent
  split
  · rename_i tail htext
    exact absurd htext (h tail)
  · rename_i tail htext
    exact absurd htext (h' tail)
  · rfl

theorem local_readExponent : Local readExponent := by
  constructor
  intro text left offset stop exponent h rest offset' hrest
  by_cases hmark : ∃ tail, text = 'e' :: tail ∨ text = 'E' :: tail
  · obtain ⟨tail, rfl | rfl⟩ := hmark
    · exact local_readExponentDigits.append h rest (offset' + 1) hrest
    · exact local_readExponentDigits.append h rest (offset' + 1) hrest
  · have hlower : ∀ tail, text ≠ 'e' :: tail := fun tail h => hmark ⟨tail, .inl h⟩
    have hupper : ∀ tail, text ≠ 'E' :: tail := fun tail h => hmark ⟨tail, .inr h⟩
    rw [readExponent_of_ne hlower hupper] at h
    cases h
    exact ⟨_, readExponent_of_ne (append_ne_cons hrest (by decide) hlower)
      (append_ne_cons hrest (by decide) hupper) offset'⟩

theorem local_read : Local read :=
  local_readSign.bind fun negative => local_readWhole.bind fun whole => local_readFraction.bind
    fun fraction =>
    local_readExponent.bind fun exponent => Local.ok (Numeral.mk negative whole fraction exponent)

/-! ## Digits of an integer -/

/-- A number other than zero is not written with a zero in front. -/
theorem eq_nil_of_toDigits {n : Nat} {digits : List Char} (h : Nat.toDigits 10 n = '0' :: digits) :
    digits = [] := by
  induction n using Nat.strongRecOn generalizing digits with
  | ind n ih =>
      by_cases hsmall : n < 10
      · rw [Nat.toDigits_of_lt_base hsmall] at h
        exact (List.cons.inj h).2.symm
      rw [Nat.toDigits_of_base_le (by decide) (Nat.not_lt.1 hsmall)] at h
      cases hfront : Nat.toDigits 10 (n / 10) with
      | nil => exact absurd hfront Nat.toDigits_ne_nil
      | cons d front =>
          rw [hfront, List.cons_append] at h
          obtain ⟨rfl, -⟩ := List.cons.inj h
          -- The digits in front of the last one would be a lone zero.
          cases ih (n / 10) (by omega) hfront
          have hvalue : Nat.ofDigitChars 10 (Nat.toDigits 10 (n / 10)) 0 = n / 10 :=
            Nat.ofDigitChars_ten_toDigits
          rw [hfront] at hvalue
          have hzero : Nat.ofDigitChars 10 ['0'] 0 = 0 := by decide
          omega

theorem takeDigits_toDigits (n offset : Nat) :
    ∃ stop, takeDigits ⟨Nat.toDigits 10 n, offset⟩ = (Nat.toDigits 10 n, ⟨[], stop⟩) := by
  have hdigits : ∀ c ∈ Nat.toDigits 10 n, c.isDigit = true :=
    fun c hc => Nat.isDigit_of_mem_toDigits (by decide) (Nat.le_refl 10) hc
  refine ⟨offset + (Nat.toDigits 10 n).length, ?_⟩
  have htake : (Nat.toDigits 10 n).takeWhile Char.isDigit = Nat.toDigits 10 n := by
    exact List.takeWhile_eq_self_iff.2 hdigits
  have hdrop : (Nat.toDigits 10 n).dropWhile Char.isDigit = [] := by
    exact List.dropWhile_eq_nil_iff.2 hdigits
  rw [takeDigits, htake, hdrop]

theorem readWhole_toDigits (n offset : Nat) :
    ∃ stop, readWhole ⟨Nat.toDigits 10 n, offset⟩ = .ok (Nat.toDigits 10 n, ⟨[], stop⟩) := by
  obtain ⟨stop, htake⟩ := takeDigits_toDigits n offset
  refine ⟨stop, ?_⟩
  cases hdigits : Nat.toDigits 10 n with
  | nil => exact absurd hdigits Nat.toDigits_ne_nil
  | cons c digits =>
      have hc : c.isDigit = true :=
        Nat.isDigit_of_mem_toDigits (b := 10) (n := n) (by decide) (Nat.le_refl 10)
          (by simp [hdigits])
      have hzero : ¬ (c = '0' ∧ digits.head?.any Char.isDigit = true) := by
        rintro ⟨rfl, hmore⟩
        cases eq_nil_of_toDigits hdigits
        cases hmore
      rw [readWhole_cons, if_neg hzero, if_pos hc, ← hdigits, htake]

theorem le_ofDigitChars (n : Nat) (digits : List Char) : n ≤ Nat.ofDigitChars 10 digits n := by
  induction digits generalizing n with
  | nil => exact Nat.le_refl n
  | cons d digits ih =>
      rw [Nat.ofDigitChars_cons]
      exact Nat.le_trans (by omega) (ih _)

/-- Digits whose value fits are all taken. -/
theorem absorb_eq {n : Nat} {digits : List Char} (h : Nat.ofDigitChars 10 digits n ≤ maxWord) :
    absorb n digits = (Nat.ofDigitChars 10 digits n, []) := by
  induction digits generalizing n with
  | nil => rfl
  | cons d digits ih =>
      rw [Nat.ofDigitChars_cons] at h ⊢
      have hnext : 10 * n + digitValue d ≤ maxWord := Nat.le_trans (le_ofDigitChars _ digits) h
      rw [absorb]
      simp only [hnext, if_true]
      exact ih h

theorem read_intText (i : Int) (offset : Nat) :
    ∃ stop, read ⟨intText i, offset⟩ =
      .ok (⟨decide (i < 0), Nat.toDigits 10 i.natAbs, none, none⟩, ⟨[], stop⟩) := by
  by_cases hi : i < 0
  · obtain ⟨stop, hwhole⟩ := readWhole_toDigits i.natAbs (offset + 1)
    refine ⟨stop, ?_⟩
    simp only [intText, hi, if_true, read, readSign, hwhole, bind, Except.bind]
    rfl
  · obtain ⟨stop, hwhole⟩ := readWhole_toDigits i.natAbs offset
    have hsign : ∀ tail, Nat.toDigits 10 i.natAbs ≠ '-' :: tail := by
      intro tail h
      have hdigit : Char.isDigit '-' = true :=
        Nat.isDigit_of_mem_toDigits (b := 10) (n := i.natAbs) (by decide) (Nat.le_refl 10)
          (by simp [h])
      cases hdigit
    refine ⟨stop, ?_⟩
    simp only [intText, hi, if_false, read, readSign_of_ne hsign, hwhole, bind, Except.bind]
    rfl

/-- An integer that fits into 64 bits, with or without a sign, is the value of its digits. -/
theorem value?_int {i : Int} (hlow : -0x8000000000000000 ≤ i) (hhigh : i ≤ 0xFFFFFFFFFFFFFFFF) :
    value? ⟨decide (i < 0), Nat.toDigits 10 i.natAbs, none, none⟩ = some (.int i) := by
  have hvalue : Nat.ofDigitChars 10 (Nat.toDigits 10 i.natAbs) 0 = i.natAbs :=
    Nat.ofDigitChars_ten_toDigits
  have habsorb : absorb 0 (Nat.toDigits 10 i.natAbs) = (i.natAbs, []) := by
    rw [absorb_eq (by rw [hvalue, maxWord]; omega), hvalue]
  by_cases hi : i < 0
  · have hrange : 0 < i.natAbs ∧ i.natAbs ≤ 0x8000000000000000 := by omega
    simp only [value?, habsorb, hi, hrange, Option.isNone_none, and_self, if_true, decide_true]
    congr 2
    omega
  · simp only [value?, habsorb, hi, Option.isNone_none, and_self, if_true, decide_false]
    simp only [Bool.false_eq_true, if_false]
    congr 2
    omega

end Numeral

/-- A number ends where a delimiter starts. -/
theorem Number.local_read : Local Number.read := by
  constructor
  intro text left offset stop n h rest offset' hrest
  obtain ⟨⟨numeral, after⟩, hnumeral, hvalue⟩ := bind_eq_ok_iff.1 h
  dsimp only at hvalue
  cases hn : numeral.value? with
  | none =>
      rw [hn] at hvalue
      cases hvalue
  | some m =>
      rw [hn] at hvalue
      cases hvalue
      obtain ⟨stop', hnumeral'⟩ := Numeral.local_read.append hnumeral rest offset' hrest
      refine ⟨stop', bind_eq_ok_iff.2 ⟨_, hnumeral', ?_⟩⟩
      dsimp only
      rw [hn]
      rfl

namespace Number

/-- The number is found in its own text. -/
def ReadBack (n : Number) : Prop := ∃ stop, Number.read ⟨n.text, 0⟩ = .ok (n, ⟨[], stop⟩)

/-- The integers of 64 bits, with or without a sign. -/
def Readable : Number → Prop
  | int i => -0x8000000000000000 ≤ i ∧ i ≤ 0xFFFFFFFFFFFFFFFF
  | float _ => False

theorem Readable.readBack {n : Number} (h : n.Readable) : n.ReadBack := by
  cases n with
  | float x => exact h.elim
  | int i =>
      obtain ⟨hlow, hhigh⟩ := h
      obtain ⟨stop, hread⟩ := Numeral.read_intText i 0
      refine ⟨stop, ?_⟩
      rw [text, Number.read, hread]
      simp only [bind, Except.bind, Numeral.value?_int hlow hhigh]
      rfl

end Number

end StrongComponents
