import StrongComponents.Text.Pieces
import Mathlib.Data.List.Permutation

/-!
# Words between blanks

`Text.runs` cuts a text into words. Everything about it follows from one equation,
`runs_append_cut`: at a character that cuts, the words before and the words after it are found
apart. `Spaced` says without any cutting how words stand in a text, and `runs_eq_iff_spaced` that
there is exactly one way to find words that stand so, which is the way of `runs`.
-/

set_option autoImplicit false

namespace StrongComponents.Text

variable {cut : Char → Bool}

/-- A text is the words, in this order, with characters that cut before, between and
after them: a character that cuts belongs to no word, and a word goes on until the next
one that does or to the end. -/
inductive Spaced (cut : Char → Bool) : List Char → List (List Char) → Prop where
  | nil : Spaced cut [] []
  | blank {c : Char} {rest : List Char} {words : List (List Char)} (hc : cut c = true)
      (h : Spaced cut rest words) :
      Spaced cut (c :: rest) words
  | word {word rest : List Char} {words : List (List Char)} (hword : word ≠ [])
      (hkeep : ∀ c ∈ word, cut c = false) (hrest : ∀ c ∈ rest.head?, cut c = true)
      (h : Spaced cut rest words) : Spaced cut (word ++ rest) (word :: words)

theorem pieces_eq_splitOnP (cut : Char → Bool) (text : List Char) :
    pieces cut text = text.splitOnP cut := by
  induction text with
  | nil => rfl
  | cons c text ih =>
      rw [pieces, ih, List.splitOnP_cons_eq_if_modifyHead]
      cases hsplit : text.splitOnP cut with
      | nil => exact absurd hsplit (List.splitOnP_ne_nil cut text)
      | cons first others => rfl

/-! ## Cutting -/

theorem runs_append_cut {c : Char} (hc : cut c = true) (before after : List Char) :
    runs cut (before ++ c :: after) = runs cut before ++ runs cut after := by
  simp only [runs, pieces_eq_splitOnP]
  rw [List.splitOnP_append_cons before after hc, List.filter_append]

theorem runs_nil : runs cut [] = [] := rfl

theorem runs_cons_cut {c : Char} (hc : cut c = true) (text : List Char) :
    runs cut (c :: text) = runs cut text :=
  runs_append_cut hc [] text

theorem runs_eq_nil {text : List Char} (h : ∀ c ∈ text, cut c = true) : runs cut text = [] := by
  induction text with
  | nil => exact runs_nil
  | cons c text ih =>
      rw [runs_cons_cut (h c List.mem_cons_self)]
      exact ih fun d hd => h d (List.mem_cons_of_mem c hd)

theorem runs_of_word {word : List Char} (hword : word ≠ []) (hkeep : ∀ c ∈ word, cut c = false) :
    runs cut word = [word] := by
  rw [runs, pieces_eq_splitOnP, List.splitOnP_eq_singleton hkeep]
  simp [hword]

/-- The words of two texts that are put together, unless one word runs from the first into the
second. -/
theorem runs_append {before after : List Char}
    (h : (∀ c ∈ before.getLast?, cut c = true) ∨ ∀ c ∈ after.head?, cut c = true) :
    runs cut (before ++ after) = runs cut before ++ runs cut after := by
  rcases h with hbefore | hafter
  · rcases List.eq_nil_or_concat' before with rfl | ⟨front, c, rfl⟩
    · rfl
    · have hc : cut c = true := hbefore c (by simp)
      rw [List.append_assoc, List.singleton_append, runs_append_cut hc, runs_append_cut hc,
        runs_nil, List.append_nil]
  · cases after with
    | nil => rw [List.append_nil, runs_nil, List.append_nil]
    | cons c rest =>
        have hc : cut c = true := hafter c rfl
        rw [runs_append_cut hc, runs_cons_cut hc]

/-! ## The words that stand in a text -/

theorem runs_of_spaced {text : List Char} {words : List (List Char)} (h : Spaced cut text words) :
    runs cut text = words := by
  induction h with
  | nil => exact runs_nil
  | blank hc _ ih => rw [runs_cons_cut hc, ih]
  | word hword hkeep hrest _ ih =>
      rw [runs_append (.inr hrest), runs_of_word hword hkeep, ih, List.singleton_append]

/-- A character that does not cut begins a word, or goes in front of the word that stands next to
it. -/
theorem Spaced.exists_cons_keep {c : Char} (hc : cut c = false) {text : List Char}
    {words : List (List Char)} (h : Spaced cut text words) :
    ∃ words', Spaced cut (c :: text) words' := by
  have halone : ∀ d ∈ [c], cut d = false := by simpa using hc
  cases h with
  | nil => exact ⟨[[c]], .word (List.cons_ne_nil _ _) halone (by simp) .nil⟩
  | @blank d rest _ hd h =>
      have hnext : ∀ e ∈ (d :: rest).head?, cut e = true := by simpa using hd
      exact ⟨[c] :: words, .word (List.cons_ne_nil _ _) halone hnext (.blank hd h)⟩
  | @word word _ words hword hkeep hrest h =>
      refine ⟨(c :: word) :: words, .word (List.cons_ne_nil _ _) ?_ hrest h⟩
      exact List.forall_mem_cons.2 ⟨hc, hkeep⟩

theorem exists_spaced (cut : Char → Bool) (text : List Char) : ∃ words, Spaced cut text words := by
  induction text with
  | nil => exact ⟨[], .nil⟩
  | cons c text ih =>
      obtain ⟨words, hwords⟩ := ih
      cases hc : cut c with
      | true => exact ⟨words, .blank hc hwords⟩
      | false => exact hwords.exists_cons_keep hc

/-- The words that are found are those that stand in the text. -/
theorem runs_eq_iff_spaced {text : List Char} {words : List (List Char)} :
    runs cut text = words ↔ Spaced cut text words := by
  constructor
  · rintro rfl
    obtain ⟨words, hwords⟩ := exists_spaced cut text
    rwa [runs_of_spaced hwords]
  · exact runs_of_spaced

/-- No word is empty, and none has a character that cuts or that the text does not have. -/
theorem Spaced.mem_word {text : List Char} {words : List (List Char)} (h : Spaced cut text words)
    {word : List Char} (hword : word ∈ words) :
    word ≠ [] ∧ ∀ c ∈ word, cut c = false ∧ c ∈ text := by
  induction h with
  | nil => cases hword
  | blank _ _ ih =>
      obtain ⟨hne, hchars⟩ := ih hword
      exact ⟨hne, fun c hc => ⟨(hchars c hc).1, List.mem_cons_of_mem _ (hchars c hc).2⟩⟩
  | word hne hkeep _ _ ih =>
      rcases List.mem_cons.1 hword with rfl | hword
      · exact ⟨hne, fun c hc => ⟨hkeep c hc, List.mem_append_left _ hc⟩⟩
      · obtain ⟨hne', hchars⟩ := ih hword
        exact ⟨hne', fun c hc => ⟨(hchars c hc).1, List.mem_append_right _ (hchars c hc).2⟩⟩

end StrongComponents.Text
