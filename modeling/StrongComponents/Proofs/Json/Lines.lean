import StrongComponents.Proofs.Json.Layout

/-!
# The lines of a text

The compact text of a value has no character below the space (`Layout.space_le_of_mem_compact`),
whatever the strings in it are: what is below the space is escaped, and all else that is written is
a digit, a letter or a mark. So the text is one line of a stream. For the same reason the indented
text has a line feed only where a new line begins, and cut at its line feeds it is the lines of the
value (`Json.splitOn_prettyText`).
-/

set_option autoImplicit false

namespace StrongComponents

/-- Cut at its line feeds, a text of lines is these lines, and nothing comes after the last line
feed. -/
theorem Text.splitOn_lines {lines : List (List Char)} (h : ∀ line ∈ lines, '\n' ∉ line) :
    (lines.flatMap (· ++ ['\n'])).splitOn '\n' = lines ++ [[]] := by
  induction lines with
  | nil => rfl
  | cons line lines ih =>
      obtain ⟨hline, hlines⟩ := List.forall_mem_cons.1 h
      rw [List.flatMap_cons, List.append_assoc, List.singleton_append,
        List.splitOn_append_cons_self_of_not_mem hline, ih hlines]
      rfl

/-! ## Numbers -/

theorem space_le_of_isDigit {c : Char} (h : c.isDigit = true) : ' ' ≤ c := by
  simp only [Char.isDigit, Bool.and_eq_true, decide_eq_true_eq] at h
  exact UInt32.le_trans (by decide) h.1

theorem space_le_of_mem_toDigits {n : Nat} {c : Char} (h : c ∈ Nat.toDigits 10 n) : ' ' ≤ c :=
  space_le_of_isDigit (Nat.isDigit_of_mem_toDigits (by decide) (Nat.le_refl 10) h)

theorem space_le_of_mem_intText {i : Int} {c : Char} (h : c ∈ intText i) : ' ' ≤ c := by
  unfold intText at h
  split at h
  · rcases List.mem_cons.1 h with rfl | hdigit
    · decide
    · exact space_le_of_mem_toDigits hdigit
  · exact space_le_of_mem_toDigits h

namespace Decimal

variable {d : Decimal} {c : Char}

theorem space_le_of_mem_digits_ofScaled {n : Nat} {scale : Int}
    (h : c ∈ (ofScaled n scale).digits) : ' ' ≤ c := by
  have hmem : c ∈ (Nat.toDigits 10 n).reverse :=
    (List.dropWhile_sublist _).mem (List.mem_reverse.1 h)
  exact space_le_of_mem_toDigits (List.mem_reverse.1 hmem)

theorem space_le_of_mem_positional (hdigits : ∀ c ∈ d.digits, ' ' ≤ c) (h : c ∈ d.positional) :
    ' ' ≤ c := by
  have hmarks : ∀ mark ∈ ['0', '.'], ' ' ≤ mark := by simp
  -- Apart from its digits there are only zeros and the point.
  have hparts : c ∈ d.digits ∨ c ∈ ['0', '.'] := by
    unfold positional at h
    split at h
    · dsimp only at h
      split at h
      · simp only [List.mem_append, List.mem_replicate] at h
        rcases h with (hdigit | ⟨-, rfl⟩) | hmark
        · exact .inl hdigit
        · exact .inr (by decide)
        · exact .inr (by simpa [or_comm] using hmark)
      · simp only [List.mem_append, List.mem_cons] at h
        rcases h with hdigit | rfl | hdigit
        · exact .inl (List.mem_of_mem_take hdigit)
        · exact .inr (by decide)
        · exact .inl (List.mem_of_mem_drop hdigit)
    · simp only [List.mem_append, List.mem_replicate] at h
      rcases h with (hmark | ⟨-, rfl⟩) | hdigit
      · exact .inr (by simpa using hmark)
      · exact .inr (by decide)
      · exact .inl hdigit
  rcases hparts with hdigit | hmark
  · exact hdigits c hdigit
  · exact hmarks c hmark

theorem space_le_of_mem_scientific (hdigits : ∀ c ∈ d.digits, ' ' ≤ c) (h : c ∈ d.scientific) :
    ' ' ≤ c := by
  simp only [scientific, List.mem_append, List.mem_cons] at h
  rcases h with (hdigit | hfraction) | rfl | rfl | hexponent
  · exact hdigits c (List.mem_of_mem_take hdigit)
  · split at hfraction
    · cases hfraction
    · rcases List.mem_cons.1 hfraction with rfl | hdigit
      · decide
      · exact hdigits c (List.mem_of_mem_drop hdigit)
  · decide
  · split <;> decide
  · exact space_le_of_mem_toDigits hexponent

end Decimal

/-- The shortest digits are those of some integer. -/
theorem Binary64.exists_shortest_eq (x : Binary64) :
    ∃ n scale, x.shortest = Decimal.ofScaled n scale := by
  unfold shortest
  dsimp only
  generalize hfound : List.findSome? _ _ = found
  cases found with
  | none => exact ⟨_, _, rfl⟩
  | some d =>
      obtain ⟨count, -, hcount⟩ := List.exists_of_findSome?_eq_some hfound
      obtain ⟨n, -, rfl⟩ := Option.map_eq_some_iff.1 hcount
      exact ⟨n, _, rfl⟩

theorem Number.space_le_of_mem_text {n : Number} {c : Char} (h : c ∈ n.text) : ' ' ≤ c := by
  cases n with
  | int i => exact space_le_of_mem_intText h
  | float x =>
      simp only [text, Binary64.render, List.mem_append] at h
      rcases h with hsign | hvalue
      · split at hsign
        · cases List.mem_singleton.1 hsign
          decide
        · cases hsign
      · split at hvalue
        · have hzero : ∀ mark ∈ "0.0".toList, ' ' ≤ mark := by simp
          exact hzero c hvalue
        · obtain ⟨m, scale, hdigits⟩ := x.exists_shortest_eq
          rw [hdigits] at hvalue
          unfold Decimal.render at hvalue
          split at hvalue
          · exact Decimal.space_le_of_mem_positional
              (fun _ => Decimal.space_le_of_mem_digits_ofScaled) hvalue
          · exact Decimal.space_le_of_mem_scientific
              (fun _ => Decimal.space_le_of_mem_digits_ofScaled) hvalue

/-! ## Strings -/

namespace Json

theorem space_le_of_namedEscape? {letter c : Char} (h : Quotation.namedEscape? letter = some c) :
    ' ' ≤ letter := by
  have hletters : ∀ letter ∈ ['"', '\\', '/', 'b', 'f', 'n', 'r', 't'], ' ' ≤ letter := by simp
  apply hletters
  -- No other letter has a meaning after a backslash.
  by_contra hother
  simp only [List.mem_cons, List.not_mem_nil, or_false, not_or] at hother
  simp [Quotation.namedEscape?, hother] at h

theorem space_le_of_mem_escapeChar {c d : Char} (h : d ∈ escapeChar c) : ' ' ≤ d := by
  rcases Quotation.escapeChar_cases c with ⟨letter, hform, hletter⟩ | ⟨hcontrol, hform⟩ |
    ⟨-, -, hcontrol, hform⟩
  · rw [hform] at h
    simp only [List.mem_cons, List.not_mem_nil, or_false] at h
    rcases h with rfl | rfl
    · decide
    · exact space_le_of_namedEscape? hletter
  · have hdigits : ∀ n < 0x20, ' ' ≤ Nat.digitChar (n / 16) ∧ ' ' ≤ Nat.digitChar (n % 16) := by
      decide
    obtain ⟨hhigh, hlow⟩ := hdigits c.toNat hcontrol
    rw [hform] at h
    simp only [List.mem_cons, List.not_mem_nil, or_false] at h
    rcases h with rfl | rfl | rfl | rfl | rfl | rfl
    · decide
    · decide
    · decide
    · decide
    · exact hhigh
    · exact hlow
  · rw [hform] at h
    cases List.mem_singleton.1 h
    exact UInt32.le_iff_toNat_le.2 hcontrol

theorem space_le_of_mem_stringText {s : String} {c : Char} (h : c ∈ stringText s) : ' ' ≤ c := by
  simp only [stringText, List.cons_append, List.mem_cons, List.mem_append, List.mem_flatMap,
    List.not_mem_nil, or_false] at h
  rcases h with rfl | ⟨c', -, hescape⟩ | rfl
  · decide
  · exact space_le_of_mem_escapeChar hescape
  · decide

end Json

theorem Scalar.space_le_of_mem_text {s : Scalar} {c : Char} (h : c ∈ s.text) : ' ' ≤ c := by
  have hwords : ∀ letter ∈ "null".toList ++ "true".toList ++ "false".toList, ' ' ≤ letter := by simp
  cases s with
  | null =>
      apply hwords
      exact List.mem_append_left _ (List.mem_append_left _ h)
  | bool value =>
      apply hwords
      cases value with
      | true => exact List.mem_append_left _ (List.mem_append_right _ h)
      | false => exact List.mem_append_right _ h
  | number n => exact n.space_le_of_mem_text h
  | string s => exact Json.space_le_of_mem_stringText h

/-! ## Values without blanks -/

namespace Json

namespace Layout

mutual

/-- No character of a compact text is below the space. -/
theorem space_le_of_mem_compact {c : Char} {level : Nat} : ∀ {json : Json},
    c ∈ compact.text level json → ' ' ≤ c
  | .scalar s, h => by
      rw [text] at h
      exact s.space_le_of_mem_text h
  | .array items, h => by
      by_cases hempty : items = []
      · subst hempty
        simp only [text, List.mem_cons, List.not_mem_nil, or_false] at h
        rcases h with rfl | rfl <;> decide
      · simp only [text_array _ _ hempty, compact, List.nil_append, List.mem_cons, List.mem_append,
          List.not_mem_nil, or_false] at h
        rcases h with rfl | hitem | rfl
        · decide
        · exact space_le_of_mem_compactItems hitem
        · decide
  | .object members, h => by
      by_cases hempty : members = []
      · subst hempty
        simp only [text, List.mem_cons, List.not_mem_nil, or_false] at h
        rcases h with rfl | rfl <;> decide
      · simp only [text_object _ _ hempty, compact, List.nil_append, List.mem_cons, List.mem_append,
          List.not_mem_nil, or_false] at h
        rcases h with rfl | hmember | rfl
        · decide
        · exact space_le_of_mem_compactMembers hmember
        · decide

theorem space_le_of_mem_compactItems {c : Char} {level : Nat} : ∀ {items : List Json},
    c ∈ compact.itemsText level items → ' ' ≤ c
  | [item], h => by
      rw [itemsText] at h
      exact space_le_of_mem_compact h
  | item :: next :: rest, h => by
      simp only [itemsText, List.mem_append, List.mem_cons] at h
      rcases h with (hgap | hitem) | rfl | hrest
      · cases hgap
      · exact space_le_of_mem_compact hitem
      · decide
      · exact space_le_of_mem_compactItems hrest

theorem space_le_of_mem_compactMembers {c : Char} {level : Nat} :
    ∀ {members : List (String × Json)}, c ∈ compact.membersText level members → ' ' ≤ c
  | [(name, value)], h => by
      simp only [membersText, List.mem_append, List.mem_cons] at h
      rcases h with ((hgap | hname) | rfl | hgap) | hvalue
      · cases hgap
      · exact space_le_of_mem_stringText hname
      · decide
      · cases hgap
      · exact space_le_of_mem_compact hvalue
  | (name, value) :: next :: rest, h => by
      simp only [membersText, List.mem_append, List.mem_cons] at h
      rcases h with (((hgap | hname) | rfl | hgap) | hvalue) | rfl | hrest
      · cases hgap
      · exact space_le_of_mem_stringText hname
      · decide
      · cases hgap
      · exact space_le_of_mem_compact hvalue
      · decide
      · exact space_le_of_mem_compactMembers hrest

end

end Layout

theorem newline_notMem_compact (json : Json) : '\n' ∉ json.compact := by
  intro h
  exact absurd (Layout.space_le_of_mem_compact h) (by decide)

/-! ## Indented values -/

/-- A name and what stands between it and its value. -/
theorem space_le_nameText (name : String) : ∀ c ∈ stringText name ++ [':', ' '], ' ' ≤ c := by
  rw [List.forall_mem_append]
  exact ⟨fun c => space_le_of_mem_stringText, by simp⟩

mutual

/-- No character of a line is below the space, if none is in what stands around the value. -/
theorem space_le_valueLines (level : Nat) {before after : List Char}
    (hbefore : ∀ c ∈ before, ' ' ≤ c) (hafter : ∀ c ∈ after, ' ' ≤ c) : ∀ json : Json,
      ∀ line ∈ json.valueLines level before after, ∀ c ∈ line.content, ' ' ≤ c
  | .scalar s => by
      simp only [valueLines, List.forall_mem_singleton, List.forall_mem_append]
      exact ⟨⟨hbefore, fun c => s.space_le_of_mem_text⟩, hafter⟩
  | .array [] => by
      simp only [valueLines, List.forall_mem_singleton, List.forall_mem_append]
      exact ⟨⟨hbefore, by simp⟩, hafter⟩
  | .array (item :: items) => by
      simp only [valueLines, List.cons_append, List.forall_mem_cons, List.forall_mem_append]
      exact ⟨⟨hbefore, by simp⟩, space_le_itemLines _ (item :: items), ⟨by simp, hafter⟩, by simp⟩
  | .object [] => by
      simp only [valueLines, List.forall_mem_singleton, List.forall_mem_append]
      exact ⟨⟨hbefore, by simp⟩, hafter⟩
  | .object (member :: members) => by
      simp only [valueLines, List.cons_append, List.forall_mem_cons, List.forall_mem_append]
      exact ⟨⟨hbefore, by simp⟩, space_le_memberLines _ (member :: members), ⟨by simp, hafter⟩,
        by simp⟩

theorem space_le_itemLines (level : Nat) : ∀ items : List Json,
    ∀ line ∈ itemLines level items, ∀ c ∈ line.content, ' ' ≤ c
  | [] => nofun
  | [item] => space_le_valueLines level (by simp) (by simp) item
  | item :: next :: rest => by
      rw [itemLines, List.forall_mem_append]
      exact ⟨space_le_valueLines level (by simp) (by simp) item,
        space_le_itemLines _ (next :: rest)⟩

theorem space_le_memberLines (level : Nat) : ∀ members : List (String × Json),
    ∀ line ∈ memberLines level members, ∀ c ∈ line.content, ' ' ≤ c
  | [] => nofun
  | [(name, value)] => space_le_valueLines level (space_le_nameText name) (by simp) value
  | (name, value) :: next :: rest => by
      rw [memberLines, List.forall_mem_append]
      exact ⟨space_le_valueLines level (space_le_nameText name) (by simp) value,
        space_le_memberLines _ (next :: rest)⟩

end

end Json

end StrongComponents
