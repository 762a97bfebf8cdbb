import StrongComponents.Json.Token
import StrongComponents.Proofs.Json.Numbers

/-!
# Reading tokens back

Every value without parts is written as one token, and the token is the value again
(`Token.scan_scalar`). Strings are read back character by character, whatever comes
after the closing quotation mark.
-/

set_option autoImplicit false

namespace StrongComponents

/-! ## Strings -/

namespace Quotation

/-- The hexadecimal digits that are written are read back. -/
theorem hexValue?_digitChar : ∀ n < 16, hexValue? (Nat.digitChar n) = some n := by
  decide

theorem read_quote (rest before : List Char) (offset : Nat) :
    read ⟨'"' :: rest, offset⟩ before = .ok (String.ofList before.reverse, ⟨rest, offset + 1⟩) := by
  rw [read]
  simp

theorem read_plain {c : Char} (hquote : c ≠ '"') (hescape : c ≠ '\\') (hcontrol : 0x20 ≤ c.toNat)
    (rest before : List Char) (offset : Nat) :
    read ⟨c :: rest, offset⟩ before = read ⟨rest, offset + c.utf8Size⟩ (c :: before) := by
  rw [read]
  simp [hquote, hescape, Nat.not_lt.2 hcontrol]

theorem read_escape {e : Char} {rest : List Char} {offset : Nat} {after : Cursor}
    (h : readEscape ⟨rest, offset + 1⟩ = .ok (e, after)) (before : List Char) :
    read ⟨'\\' :: rest, offset⟩ before = read after (e :: before) := by
  rw [read]
  simp only [Char.reduceEq, if_false, if_true]
  -- The definition matches on the escape together with its equation, so the match is split and not
  -- rewritten.
  split
  · rename_i h'
    rw [h] at h'
    cases h'
  · rename_i h'
    rw [h] at h'
    cases h'
    rfl

theorem readEscape_named {letter e : Char} (h : namedEscape? letter = some e) (rest : List Char)
    (offset : Nat) :
    readEscape ⟨letter :: rest, offset⟩ = .ok (e, ⟨rest, offset + 1⟩) := by
  simp [readEscape, h]

/-- A character below the space is read back from its number. -/
theorem readEscape_numbered {c : Char} (hcontrol : c.toNat < 0x20) (rest : List Char)
    (offset : Nat) :
    readEscape
        ⟨'u' :: '0' :: '0' :: Nat.digitChar (c.toNat / 16) :: Nat.digitChar (c.toNat % 16) :: rest,
          offset⟩ =
      .ok (c, ⟨rest, offset + 5⟩) := by
  have hzero : hexValue? '0' = some 0 := by decide
  have hhigh := hexValue?_digitChar (c.toNat / 16) (by omega)
  have hlow := hexValue?_digitChar (c.toNat % 16) (by omega)
  have hvalue : hexValue4? '0' '0' (Nat.digitChar (c.toNat / 16)) (Nat.digitChar (c.toNat % 16)) =
      some c.toNat := by
    simp only [hexValue4?, hzero, hhigh, hlow, Option.bind_eq_bind, Option.bind_some, pure,
      Option.some.injEq]
    omega
  have hnamed : namedEscape? 'u' = none := by decide
  -- The number is below the surrogates, so one escape is the whole character.
  have hhalf : isLowSurrogate c.toNat = false ∧ isHighSurrogate c.toNat = false := by
    simp only [isLowSurrogate, isHighSurrogate, Bool.and_eq_false_iff, decide_eq_false_iff_not]
    omega
  simp [readEscape, hnamed, readNumbered, readHex4, hvalue, hhalf, bind, Except.bind, pure,
    Except.pure]

/-- A character is written as a letter that names it, by its number or as it is. -/
theorem escapeChar_cases (c : Char) :
    (∃ letter, Json.escapeChar c = ['\\', letter] ∧ namedEscape? letter = some c) ∨
      (c.toNat < 0x20 ∧ Json.escapeChar c =
        ['\\', 'u', '0', '0', Nat.digitChar (c.toNat / 16), Nat.digitChar (c.toNat % 16)]) ∨
      (c ≠ '"' ∧ c ≠ '\\' ∧ 0x20 ≤ c.toNat ∧ Json.escapeChar c = [c]) := by
  unfold Json.escapeChar
  split
  · rename_i h
    exact .inl ⟨'"', rfl, by rw [h]; decide⟩
  split
  · rename_i h
    exact .inl ⟨'\\', rfl, by rw [h]; decide⟩
  split
  · rename_i h
    exact .inl ⟨'b', rfl, by rw [h]; decide⟩
  split
  · rename_i h
    exact .inl ⟨'t', rfl, by rw [h]; decide⟩
  split
  · rename_i h
    exact .inl ⟨'n', rfl, by rw [h]; decide⟩
  split
  · rename_i h
    exact .inl ⟨'f', rfl, by rw [h]; decide⟩
  split
  · rename_i h
    exact .inl ⟨'r', rfl, by rw [h]; decide⟩
  rename_i hquote hescape _ _ _ _ _
  split
  · rename_i hcontrol
    exact .inr (.inl ⟨hcontrol, rfl⟩)
  · rename_i hcontrol
    exact .inr (.inr ⟨hquote, hescape, Nat.not_lt.1 hcontrol, rfl⟩)

/-- A character is read back from the form that it is written in. -/
theorem read_escapeChar (c : Char) (rest before : List Char) (offset : Nat) :
    ∃ offset', read ⟨Json.escapeChar c ++ rest, offset⟩ before =
      read ⟨rest, offset'⟩ (c :: before) := by
  rcases escapeChar_cases c with ⟨letter, hform, hletter⟩ | ⟨hcontrol, hform⟩ |
    ⟨hquote, hescape, hcontrol, hform⟩
  · rw [hform]
    exact ⟨_, read_escape (readEscape_named hletter rest _) before⟩
  · rw [hform]
    exact ⟨_, read_escape (readEscape_numbered hcontrol rest _) before⟩
  · rw [hform]
    exact ⟨_, read_plain hquote hescape hcontrol rest before offset⟩

/-- A string is read back from its characters up to the closing quotation mark, whatever comes after
it. -/
theorem read_flatMap (chars rest : List Char) : ∀ (before : List Char) (offset : Nat), ∃ offset',
    read ⟨chars.flatMap Json.escapeChar ++ '"' :: rest, offset⟩ before =
      .ok (String.ofList (before.reverse ++ chars), ⟨rest, offset'⟩) := by
  induction chars with
  | nil =>
      intro before offset
      exact ⟨offset + 1, by simpa using read_quote rest before offset⟩
  | cons c chars ih =>
      intro before offset
      obtain ⟨next, hnext⟩ :=
        read_escapeChar c (chars.flatMap Json.escapeChar ++ '"' :: rest) before offset
      obtain ⟨offset', hread⟩ := ih (c :: before) next
      refine ⟨offset', ?_⟩
      rw [List.flatMap_cons, List.append_assoc, hnext, hread, List.reverse_cons, List.append_assoc]
      rfl

end Quotation

/-! ## Tokens -/

namespace Token

theorem scan_nil (offset : Nat) : scan ⟨[], offset⟩ = [⟨.endOfText, offset, offset⟩] := by
  rw [scan]

theorem eq_of_isBlank {c : Char} (h : isBlank c = true) :
    c = ' ' ∨ c = '\n' ∨ c = '\t' ∨ c = '\r' := by
  simpa [isBlank, or_assoc] using h

/-- Blanks are passed over. -/
theorem scan_append_of_isBlank {gap : List Char} (h : ∀ c ∈ gap, isBlank c = true)
    (rest : List Char) (offset : Nat) :
    scan ⟨gap ++ rest, offset⟩ = scan ⟨rest, offset + gap.length⟩ := by
  induction gap generalizing offset with
  | nil => rfl
  | cons c gap ih =>
      obtain ⟨hc, hgap⟩ := List.forall_mem_cons.1 h
      rw [List.cons_append, scan]
      simp only [hc, if_true]
      rw [ih hgap, List.length_cons, Nat.add_assoc, Nat.add_comm 1]

theorem delimited_append {gap rest : List Char} (h : ∀ c ∈ gap, isBlank c = true)
    (hrest : Delimited rest) : Delimited (gap ++ rest) := by
  cases gap with
  | nil => exact hrest
  | cons c gap =>
      apply delimited_cons
      rcases eq_of_isBlank (h c List.mem_cons_self) with rfl | rfl | rfl | rfl <;> decide

theorem scan_of_lex {c : Char} {rest : List Char} {offset : Nat} {lexeme : Lexeme} {after : Cursor}
    (hblank : isBlank c = false) (h : lex c rest offset = .token lexeme after) :
    scan ⟨c :: rest, offset⟩ = ⟨lexeme, offset, after.offset⟩ :: scan after := by
  rw [scan]
  simp only [hblank]
  split
  · rename_i h'
    cases h'
  · split
    · rename_i h'
      rw [h] at h'
      cases h'
    · rename_i h'
      rw [h] at h'
      cases h'
      rfl

theorem scan_punctuation {c : Char} {lexeme : Lexeme} (h : punctuation? c = some lexeme)
    (rest : List Char) (offset : Nat) :
    scan ⟨c :: rest, offset⟩ = ⟨lexeme, offset, offset + 1⟩ :: scan ⟨rest, offset + 1⟩ := by
  have hblank : isBlank c = false := by
    rw [Bool.eq_false_iff]
    intro hblank
    rcases eq_of_isBlank hblank with rfl | rfl | rfl | rfl <;> cases h
  have hlex : lex c rest offset = .token lexeme ⟨rest, offset + 1⟩ := by
    rw [lex, h]
  exact scan_of_lex hblank hlex

theorem scan_string (s : String) (rest : List Char) (offset : Nat) :
    ∃ stop, scan ⟨Json.stringText s ++ rest, offset⟩ =
      ⟨.scalar (.string s), offset, stop⟩ :: scan ⟨rest, stop⟩ := by
  obtain ⟨stop, hread⟩ := Quotation.read_flatMap s.toList rest [] (offset + 1)
  have hlex : lex '"' (s.toList.flatMap Json.escapeChar ++ '"' :: rest) offset =
      .token (.scalar (.string s)) ⟨rest, stop⟩ := by
    have hquote : punctuation? '"' = none := by decide
    rw [lex, hquote]
    simp [hread, Lexed.ofResult]
  refine ⟨stop, ?_⟩
  rw [Json.stringText, List.cons_append, List.cons_append, List.append_assoc]
  exact scan_of_lex (by decide) hlex

theorem readLetters_append (letters rest : List Char) (offset : Nat) :
    ∃ stop, readLetters letters ⟨letters ++ rest, offset⟩ = .ok ⟨rest, stop⟩ := by
  induction letters generalizing offset with
  | nil => exact ⟨offset, rfl⟩
  | cons letter letters ih =>
      obtain ⟨stop, hread⟩ := ih (offset + 1)
      refine ⟨stop, ?_⟩
      rw [List.cons_append, readLetters]
      simpa using hread

/-- The words for the values without parts are read to their last letter. -/
theorem scan_word {c : Char} {value : Scalar} {letters : String}
    (h : word? c = some (value, letters)) (rest : List Char) (offset : Nat) :
    ∃ stop, scan ⟨c :: letters.toList ++ rest, offset⟩ =
      ⟨.scalar value, offset, stop⟩ :: scan ⟨rest, stop⟩ := by
  have hc : c = 'n' ∨ c = 't' ∨ c = 'f' := by
    by_contra hother
    simp only [not_or] at hother
    simp [word?, hother] at h
  have hfirst : isBlank c = false ∧ punctuation? c = none ∧ c ≠ '"' ∧
      ¬ (c = '-' ∨ c.isDigit = true) := by
    rcases hc with rfl | rfl | rfl <;> decide
  obtain ⟨hblank, hpunctuation, hquote, hnumber⟩ := hfirst
  obtain ⟨stop, hread⟩ := readLetters_append letters.toList rest (offset + 1)
  have hlex : lex c (letters.toList ++ rest) offset = .token (.scalar value) ⟨rest, stop⟩ := by
    rw [lex, hpunctuation]
    simp only [hquote, hnumber, h, readWord, hread]
    rfl
  exact ⟨stop, scan_of_lex hblank hlex⟩

/-- A number starts with its sign or with a digit. -/
theorem exists_cons_of_readBack {n : Number} (h : n.ReadBack) :
    ∃ c text, n.text = c :: text ∧ (c = '-' ∨ c.isDigit = true) := by
  obtain ⟨stop, hread⟩ := h
  obtain ⟨⟨numeral, after⟩, hnumeral, -⟩ := bind_eq_ok_iff.1 hread
  cases htext : n.text with
  | nil =>
      rw [htext] at hnumeral
      cases hnumeral
  | cons c text =>
      refine ⟨c, text, rfl, ?_⟩
      by_contra hother
      obtain ⟨hminus, hdigit⟩ := not_or.1 hother
      have hsign : ∀ tail, c :: text ≠ '-' :: tail := fun tail h => hminus (List.cons.inj h).1
      have hzero : ¬ (c = '0' ∧ text.head?.any Char.isDigit = true) := by
        rintro ⟨rfl, -⟩
        exact hdigit (by decide)
      rw [htext, Numeral.read, Numeral.readSign_of_ne hsign] at hnumeral
      simp only [Numeral.readWhole_cons, if_neg hzero, if_neg hdigit] at hnumeral
      cases hnumeral

theorem scan_number {n : Number} (hn : n.ReadBack) {rest : List Char} (hrest : Delimited rest)
    (offset : Nat) :
    ∃ stop, scan ⟨n.text ++ rest, offset⟩ =
      ⟨.scalar (.number n), offset, stop⟩ :: scan ⟨rest, stop⟩ := by
  obtain ⟨c, text, htext, hc⟩ := exists_cons_of_readBack hn
  obtain ⟨stop₀, hread₀⟩ := hn
  obtain ⟨stop, hread⟩ := Number.local_read.append hread₀ rest offset hrest
  rw [htext, List.cons_append, List.nil_append] at hread
  -- No character that starts another token is a sign or a digit.
  have hother : ∀ d : Char, d ≠ '-' → d.isDigit = false → c ≠ d := by
    rintro d hminus hdigit rfl
    rcases hc with hc | hc
    · exact hminus hc
    · rw [hdigit] at hc
      cases hc
  have hblank : isBlank c = false := by simp [isBlank, hother]
  have hpunctuation : punctuation? c = none := by simp [punctuation?, hother]
  have hquote : c ≠ '"' := by simp [hother]
  have hlex : lex c (text ++ rest) offset = .token (.scalar (.number n)) ⟨rest, stop⟩ := by
    rw [lex, hpunctuation]
    simp only [hquote, hc, hread, if_true, if_false]
    rfl
  rw [htext]
  exact ⟨stop, scan_of_lex hblank hlex⟩

/-- The text of a value without parts is one token. -/
theorem scan_scalar {value : Scalar} (hvalue : ∀ n, value = .number n → n.ReadBack)
    {rest : List Char} (hrest : Delimited rest) (offset : Nat) :
    ∃ stop, scan ⟨value.text ++ rest, offset⟩ =
      ⟨.scalar value, offset, stop⟩ :: scan ⟨rest, stop⟩ := by
  cases value with
  | null => exact scan_word (c := 'n') rfl rest offset
  | bool b =>
      cases b with
      | true => exact scan_word (c := 't') rfl rest offset
      | false => exact scan_word (c := 'f') rfl rest offset
  | number n => exact scan_number (hvalue n rfl) hrest offset
  | string s => exact scan_string s rest offset

end Token

end StrongComponents
