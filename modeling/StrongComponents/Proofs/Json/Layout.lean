import StrongComponents.Json.Printer
import StrongComponents.Proofs.Json.Tokens

/-!
# Layouts

A layout puts blanks between the tokens of a text and nothing else (`Layout.Blank`), so it makes no
difference to a reader. To a person it does: the lines of the indented text are listed by
`Json.lines`, each with its level and what stands on it, and the text is these lines one after the
other (`Layout.newLine_append_pretty`).
-/

set_option autoImplicit false

namespace StrongComponents.Json

namespace Layout

/-! ## Texts of arrays and objects -/

section Parts

variable (layout : Layout) (level : Nat)

theorem text_array {items : List Json} (h : items ≠ []) :
    layout.text level (.array items) =
      '[' :: (layout.itemsText (level + 1) items ++ (layout.gap level ++ [']'])) := by
  cases items with
  | nil => exact absurd rfl h
  | cons item items => simp [text]

theorem text_object {members : List (String × Json)} (h : members ≠ []) :
    layout.text level (.object members) =
      '\x7b' :: (layout.membersText (level + 1) members ++ (layout.gap level ++ ['\x7d'])) := by
  cases members with
  | nil => exact absurd rfl h
  | cons member members => simp [text]

theorem text_object_ne_nil (members : List (String × Json)) :
    layout.text level (.object members) ≠ [] := by
  cases members with
  | nil => simp [text]
  | cons member members => simp [text]

end Parts

/-! ## Blanks -/

/-- Only blanks stand between the tokens. -/
structure Blank (layout : Layout) : Prop where
  gap : ∀ level, ∀ c ∈ layout.gap level, Token.isBlank c = true
  afterColon : ∀ c ∈ layout.afterColon, Token.isBlank c = true

theorem blank_compact : Blank compact := by
  constructor
  · simp [compact]
  · simp [compact]

end Layout

/-! ## Lines -/

/-- A line of an indented text. -/
structure Line where
  level : Nat
  content : List Char

/-- The line with its two blanks for each level. -/
def Line.text (line : Line) : List Char := List.replicate (2 * line.level) ' ' ++ line.content

mutual

/-- The lines of a value. Its first line starts with `before` and its last one ends with `after`. -/
def valueLines (level : Nat) (before after : List Char) : Json → List Line
  | scalar s => [⟨level, before ++ s.text ++ after⟩]
  | array [] => [⟨level, before ++ ['[', ']'] ++ after⟩]
  | array items =>
    ⟨level, before ++ ['[']⟩ :: itemLines (level + 1) items ++ [⟨level, ']' :: after⟩]
  | object [] => [⟨level, before ++ ['\x7b', '\x7d'] ++ after⟩]
  | object members =>
    ⟨level, before ++ ['\x7b']⟩ :: memberLines (level + 1) members ++ [⟨level, '\x7d' :: after⟩]

/-- The lines of the items. Each item but the last is followed by a comma. -/
def itemLines (level : Nat) : List Json → List Line
  | [] => []
  | [item] => item.valueLines level [] []
  | item :: next :: rest => item.valueLines level [] [','] ++ itemLines level (next :: rest)

/-- The lines of the members. The name of a member stands before its value. -/
def memberLines (level : Nat) : List (String × Json) → List Line
  | [] => []
  | [(name, value)] => value.valueLines level (stringText name ++ [':', ' ']) []
  | (name, value) :: next :: rest =>
    value.valueLines level (stringText name ++ [':', ' ']) [','] ++ memberLines level (next :: rest)

end

/-- The lines of a value that stands alone. -/
def lines (json : Json) : List Line := json.valueLines 0 [] []

namespace Layout

/-- Lines one after the other, with a line feed before each. -/
def feed (lines : List Line) : List Char := lines.flatMap fun line => '\n' :: line.text

theorem feed_append (lines more : List Line) : feed (lines ++ more) = feed lines ++ feed more :=
  List.flatMap_append

theorem feed_singleton (level : Nat) (content : List Char) :
    feed [⟨level, content⟩] = newLine level ++ content := by
  simp [feed, newLine, Line.text]

mutual

/-- The text of a value on a new line, with what stands before and after it, is its lines. -/
theorem newLine_append_pretty (level : Nat) (before after : List Char) : ∀ json : Json,
    newLine level ++ before ++ pretty.text level json ++ after =
      feed (json.valueLines level before after)
  | .scalar s => by
      simp [valueLines, feed_singleton, text]
  | .array [] => by
      simp [valueLines, feed_singleton, text]
  | .array (item :: items) => by
      have hitems := itemsText_pretty (level + 1) (item :: items)
      have hlines : (array (item :: items)).valueLines level before after =
          [⟨level, before ++ ['[']⟩] ++ itemLines (level + 1) (item :: items) ++
            [⟨level, ']' :: after⟩] := by
        simp [valueLines]
      rw [text_array _ _ (List.cons_ne_nil _ _), hitems, hlines, feed_append, feed_append,
        feed_singleton, feed_singleton]
      simp [pretty]
  | .object [] => by
      simp [valueLines, feed_singleton, text]
  | .object (member :: members) => by
      have hmembers := membersText_pretty (level + 1) (member :: members)
      have hlines : (object (member :: members)).valueLines level before after =
          [⟨level, before ++ ['\x7b']⟩] ++ memberLines (level + 1) (member :: members) ++
            [⟨level, '\x7d' :: after⟩] := by
        simp [valueLines]
      rw [text_object _ _ (List.cons_ne_nil _ _), hmembers, hlines, feed_append, feed_append,
        feed_singleton, feed_singleton]
      simp [pretty]

theorem itemsText_pretty (level : Nat) : ∀ items : List Json,
    pretty.itemsText level items = feed (itemLines level items)
  | [] => rfl
  | [item] => by
      have hitem := newLine_append_pretty level [] [] item
      rw [itemsText, itemLines, ← hitem]
      simp [pretty]
  | item :: next :: rest => by
      have hitem := newLine_append_pretty level [] [','] item
      rw [itemsText, itemLines, feed_append, ← hitem, itemsText_pretty level (next :: rest)]
      simp [pretty]

theorem membersText_pretty (level : Nat) : ∀ members : List (String × Json),
    pretty.membersText level members = feed (memberLines level members)
  | [] => rfl
  | [(name, value)] => by
      have hvalue := newLine_append_pretty level (stringText name ++ [':', ' ']) [] value
      rw [membersText, memberLines, ← hvalue]
      simp [pretty]
  | (name, value) :: next :: rest => by
      have hvalue := newLine_append_pretty level (stringText name ++ [':', ' ']) [','] value
      rw [membersText, memberLines, feed_append, ← hvalue,
        membersText_pretty level (next :: rest)]
      simp [pretty]

end

end Layout

end StrongComponents.Json
