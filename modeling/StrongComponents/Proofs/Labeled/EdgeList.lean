import StrongComponents.Proofs.Labeled.Additions
import StrongComponents.Proofs.Text.Words
import Mathlib.Data.List.Forall2
import Mathlib.Data.List.TakeWhile
import Mathlib.Logic.Relation

/-!
# What an edge list says

A line of an edge list says nothing but its words: none, the label of a vertex, or the two labels
of an edge. `parse_outcome` tells the graph from the words on the lines, without the steps by
which it is made, and says which texts are refused and at which line. It follows that whatever
changes the words on no line changes nothing (`Retouched`), and that a line without words does not
change the graph (`Restyled`).
-/

set_option autoImplicit false

namespace StrongComponents

/-- The number of labels on a line that is refused for them. -/
def EdgeListError.labels? : EdgeListError → Option Nat
  | tooManyLabels _ labels => some labels
  | graph _ => none

namespace EdgeList

/-! ## Words -/

/-- The words on the lines of a text, where each line is cut at its first number sign. -/
def LineWords (text : String) (words : List (List String)) : Prop :=
  List.Forall₂
    (fun line found =>
      Text.Spaced Text.isBlank (line.takeWhile (· != '#')) (found.map String.toList))
    (text.toList.splitOn '\n') words

theorem lines_eq_splitOn (text : String) :
    lines text = text.toList.splitOn '\n' := Text.pieces_eq_splitOnP _ _

theorem labels_eq_iff {line : List Char} {words : List String} :
    labels line = words ↔
      Text.Spaced Text.isBlank (line.takeWhile (· != '#')) (words.map String.toList) := by
  rw [labels, ← Text.runs_eq_iff_spaced]
  constructor
  · rintro rfl
    simp [Function.comp_def]
  · intro h
    simp [h, Function.comp_def]

theorem lineWords_iff {text : String} {words : List (List String)} :
    LineWords text words ↔ words = (lines text).map labels := by
  rw [LineWords, lines_eq_splitOn]
  simp only [← labels_eq_iff]
  rw [← List.forall₂_map_left_iff (R := (· = ·)), List.forall₂_eq_eq_eq]
  exact eq_comm

/-- The edge that the words on a line say. -/
def edge? : List String → Option (String × String)
  | [source, target] => some (source, target)
  | _ => none

/-- What the words on a line add to a graph. -/
def addition? : List String → Option (Addition String)
  | [v] => some (.vertex v)
  | [source, target] => some (.edge source target)
  | _ => none

theorem edge?_eq_bind (words : List String) :
    edge? words = (addition? words).bind Addition.edge? := by
  rcases words with _ | ⟨v, _ | ⟨w, _ | ⟨x, rest⟩⟩⟩ <;> rfl

theorem isSome_edge? (words : List String) : (edge? words).isSome = true ↔ words.length = 2 := by
  rcases words with _ | ⟨v, _ | ⟨w, _ | ⟨x, rest⟩⟩⟩ <;> simp [edge?]

/-- A line that says something says it with the labels that it mentions. -/
theorem mentions_addition? {words : List String} (h : words.length ≤ 2) :
    (addition? words).toList.flatMap Addition.mentions = words := by
  rcases words with _ | ⟨v, _ | ⟨w, _ | ⟨x, rest⟩⟩⟩
  · rfl
  · rfl
  · rfl
  · simp at h

/-! ## Lines -/

section Lines

variable {g : LabeledGraph String} {number : Nat}

theorem addLine_of_short {line : List Char} (h : (labels line).length ≤ 2) :
    addLine g line number = (g.addAll (addition? (labels line)).toList).mapError .graph := by
  rw [addLine]
  generalize labels line = words at h
  rcases words with _ | ⟨v, _ | ⟨w, _ | ⟨x, rest⟩⟩⟩
  · rfl
  · rfl
  · rw [addition?, Option.toList_some, LabeledGraph.addAll_singleton]
    rfl
  · simp at h

theorem addLine_of_long {line : List Char} (h : 2 < (labels line).length) :
    addLine g line number = .error (.tooManyLabels number (labels line).length) := by
  rw [addLine]
  generalize labels line = words at h
  rcases words with _ | ⟨v, _ | ⟨w, _ | ⟨x, rest⟩⟩⟩
  · simp at h
  · simp at h
  · simp at h
  · rfl

theorem addLines_append (before after : List (List Char)) :
    ∀ (g : LabeledGraph String) (number : Nat),
    addLines g number (before ++ after) =
      addLines g number before >>= fun g => addLines g (number + before.length) after := by
  induction before with
  | nil => exact fun _ _ => rfl
  | cons line before ih =>
      intro g number
      rw [List.cons_append, addLines, addLines]
      cases addLine g line number with
      | error e => rfl
      | ok next =>
          rw [List.length_cons, Nat.add_comm before.length 1, ← Nat.add_assoc]
          exact ih next (number + 1)

/-- Lines of at most two words are added one after the other. -/
theorem addLines_of_short (lines : List (List Char)) : ∀ (g : LabeledGraph String) (number : Nat),
    (∀ line ∈ lines, (labels line).length ≤ 2) →
      addLines g number lines =
        (g.addAll ((lines.map labels).filterMap addition?)).mapError .graph := by
  induction lines with
  | nil => exact fun _ _ _ => rfl
  | cons line lines ih =>
      intro g number hshort
      have hline := hshort line List.mem_cons_self
      have hadditions : ((line :: lines).map labels).filterMap addition? =
          (addition? (labels line)).toList ++ (lines.map labels).filterMap addition? := by
        rw [List.map_cons, List.filterMap_cons]
        -- A line without words adds nothing, and is left out of what is added.
        cases addition? (labels line) with
        | none => rfl
        | some addition => rfl
      rw [addLines, addLine_of_short hline, hadditions, LabeledGraph.addAll_append]
      cases g.addAll (addition? (labels line)).toList with
      | error e => rfl
      | ok next => exact ih next _ fun other hother => hshort other (List.mem_cons_of_mem _ hother)

/-- The first line with more than two words is refused, by its number and the number of its
words. -/
theorem addLines_of_long (hg : g.Consistent) {before after : List (List Char)} {line : List Char}
    (hbefore : ∀ earlier ∈ before, (labels earlier).length ≤ 2) (hline : 2 < (labels line).length) :
    addLines g number (before ++ line :: after) =
      .error (.tooManyLabels (number + before.length) (labels line).length) := by
  obtain ⟨h, hok, -⟩ := hg.exists_addAll ((before.map labels).filterMap addition?)
  rw [addLines_append, addLines_of_short before g number hbefore, hok]
  show addLines h (number + before.length) (line :: after) = _
  rw [addLines, addLine_of_long hline]

end Lines

/-! ## Texts -/

section Texts

variable {text : String}

/-- The words on the lines of a text. -/
def wordsOf (text : String) : List (List String) := (lines text).map labels

theorem parse_of_short (h : ∀ line ∈ wordsOf text, line.length ≤ 2) :
    parse text =
      (LabeledGraph.empty.addAll ((wordsOf text).filterMap addition?)).mapError .graph :=
  addLines_of_short (lines text) _ _ fun _ hline => h _ (List.mem_map_of_mem hline)

theorem parse_of_long {before after : List (List String)} {line : List String}
    (hwords : wordsOf text = before ++ line :: after)
    (hbefore : ∀ earlier ∈ before, earlier.length ≤ 2) (hline : 2 < line.length) :
    parse text = .error (.tooManyLabels (before.length + 1) line.length) := by
  obtain ⟨front, back, hlines, rfl, hback⟩ := List.map_eq_append_iff.1 hwords
  obtain ⟨found, rest, rfl, rfl, -⟩ := List.map_eq_cons_iff.1 hback
  have hshort : ∀ earlier ∈ front, (labels earlier).length ≤ 2 := fun _ hearlier =>
    hbefore _ (List.mem_map_of_mem hearlier)
  rw [parse, hlines, addLines_of_long LabeledGraph.Consistent.empty hshort hline, List.length_map,
    Nat.add_comm]

/-- Either no line of a text has more than two words, or there is a first one. -/
theorem short_or_first_long (found : List (List String)) :
    (∀ line ∈ found, line.length ≤ 2) ∨ ∃ before line after, found = before ++ line :: after ∧
      (∀ earlier ∈ before, earlier.length ≤ 2) ∧ 2 < line.length := by
  cases h : found.find? (2 < ·.length) with
  | none => exact .inl (by simpa using h)
  | some line =>
      obtain ⟨hline, before, after, hfound, hbefore⟩ := List.find?_eq_some_iff_append.1 h
      exact .inr ⟨before, line, after, hfound, by simpa using hbefore, by simpa using hline⟩

theorem exists_parse_iff : (∃ g, parse text = .ok g) ↔ ∀ line ∈ wordsOf text, line.length ≤ 2 := by
  constructor
  · rintro ⟨g, hg⟩
    rcases short_or_first_long (wordsOf text) with hshort |
      ⟨before, line, after, hwords, hbefore, hline⟩
    · exact hshort
    · rw [parse_of_long hwords hbefore hline] at hg
      cases hg
  · intro hshort
    obtain ⟨g, hok, -⟩ :=
      LabeledGraph.Consistent.empty.exists_addAll ((wordsOf text).filterMap addition?)
    exact ⟨g, by rw [parse_of_short hshort, hok]; rfl⟩

/-- Too many words on a line are the only fault that a text can have. -/
theorem tooManyLabels_of_parse {e : EdgeListError} (h : parse text = .error e) :
    ∃ line count, e = .tooManyLabels line count := by
  rcases short_or_first_long (wordsOf text) with hshort |
    ⟨before, line, after, hwords, hbefore, hline⟩
  · obtain ⟨g, hg⟩ := exists_parse_iff.2 hshort
    cases h.symm.trans hg
  · cases h.symm.trans (parse_of_long hwords hbefore hline)
    exact ⟨_, _, rfl⟩

/-- The graph of a text is told by its words. -/
theorem parse_congr {other : String} (h : wordsOf other = wordsOf text) :
    parse other = parse text := by
  rcases short_or_first_long (wordsOf text) with hshort |
    ⟨before, line, after, hwords, hbefore, hline⟩
  · rw [parse_of_short hshort, parse_of_short (h ▸ hshort), h]
  · rw [parse_of_long hwords hbefore hline, parse_of_long (h.trans hwords) hbefore hline]

/-- A last line without words goes unseen, also in the number of a line that is refused. -/
theorem parse_of_concat_nil {other : String} (h : wordsOf other = wordsOf text ++ [[]]) :
    parse other = parse text := by
  rcases short_or_first_long (wordsOf text) with hshort |
    ⟨before, line, after, hwords, hbefore, hline⟩
  · have hother : ∀ line ∈ wordsOf other, line.length ≤ 2 := by
      simp only [h, List.mem_append, List.mem_singleton]
      rintro line (hline | rfl)
      · exact hshort line hline
      · exact Nat.zero_le 2
    have hnothing : [[]].filterMap addition? = [] := rfl
    rw [parse_of_short hshort, parse_of_short hother, h, List.filterMap_append, hnothing,
      List.append_nil]
  · rw [hwords, List.append_assoc, List.cons_append] at h
    rw [parse_of_long hwords hbefore hline, parse_of_long h hbefore hline]

/-- The result up to the number of a refused line. -/
def verdict (found : List (List String)) : Except (Option Nat) (LabeledGraph String) :=
  match found.find? (2 < ·.length) with
  | some line => .error (some line.length)
  | none => (LabeledGraph.empty.addAll (found.filterMap addition?)).mapError fun _ => none

theorem mapError_parse : (parse text).mapError EdgeListError.labels? = verdict (wordsOf text) := by
  rw [verdict]
  cases h : (wordsOf text).find? (2 < ·.length) with
  | none =>
      rw [parse_of_short (by simpa using h)]
      cases LabeledGraph.empty.addAll ((wordsOf text).filterMap addition?) <;> rfl
  | some line =>
      obtain ⟨hline, before, after, hwords, hbefore⟩ := List.find?_eq_some_iff_append.1 h
      rw [parse_of_long hwords (by simpa using hbefore) (by simpa using hline)]
      rfl

/-- Lines without words add nothing and are never refused. -/
theorem verdict_filter (found : List (List String)) :
    verdict (found.filter (· ≠ [])) = verdict found := by
  have hfind : (found.filter (· ≠ [])).find? (2 < ·.length) = found.find? (2 < ·.length) := by
    rw [List.find?_filter]
    congr 1
    funext line
    cases line <;> simp
  have hadd : (found.filter (· ≠ [])).filterMap addition? = found.filterMap addition? := by
    rw [List.filterMap_filter]
    congr 1
    funext line
    cases line <;> simp [addition?]
  rw [verdict, verdict, hfind, hadd]

end Texts

/-! ## Graphs -/

section Graphs

variable {found : List (List String)}

theorem flatMap_mentions (h : ∀ line ∈ found, line.length ≤ 2) :
    (found.filterMap addition?).flatMap Addition.mentions = found.flatten := by
  rw [List.filterMap_eq_flatMap_toList, List.flatMap_assoc, ← List.flatMap_id]
  exact List.flatMap_congr fun line hline => mentions_addition? (h line hline)

theorem filterMap_edge?_additions (found : List (List String)) :
    (found.filterMap addition?).filterMap Addition.edge? = found.filterMap edge? := by
  rw [List.filterMap_filterMap]
  exact congrArg (found.filterMap ·) (funext fun line => (edge?_eq_bind line).symm)

theorem length_filterMap_edge? (found : List (List String)) :
    (found.filterMap edge?).length = found.countP (·.length = 2) := by
  rw [List.length_filterMap_eq_countP]
  exact List.countP_congr fun line _ => by simp [isSome_edge?]

end Graphs

/-! ## What leaves the words as they are -/

/-- A text before and after a change that every line survives with its words: a line break written
with a carriage return, a line break at the end, a comment at the end of a line, or a blank beside
another one or at an end of the text. -/
inductive Retouched : List Char → List Char → Prop where
  | carriageReturn (before after : List Char) :
      Retouched (before ++ '\n' :: after) (before ++ '\r' :: '\n' :: after)
  | finalNewline (text : List Char) : Retouched text (text ++ ['\n'])
  | comment (before note after : List Char) (hnote : '\n' ∉ note)
      (hafter : ∀ c ∈ after.head?, c = '\n') :
      Retouched (before ++ after) (before ++ ('#' :: note ++ after))
  | blank (before after : List Char) {c : Char} (hc : Text.isBlank c = true) (hne : c ≠ '\n')
      (h : (∀ d ∈ before.getLast?, Text.isBlank d = true) ∨
        ∀ d ∈ after.head?, Text.isBlank d = true) :
      Retouched (before ++ after) (before ++ c :: after)

/-- Such a change, or one more line of blanks. -/
inductive Restyled : List Char → List Char → Prop where
  | retouched {text other : List Char} (h : Retouched text other) : Restyled text other
  | blankLine (before blanks after : List Char) (hbefore : ∀ c ∈ before.getLast?, c = '\n')
      (hline : '\n' ∉ blanks) (hblanks : ∀ c ∈ blanks, Text.isBlank c = true) :
      Restyled (before ++ after) (before ++ (blanks ++ '\n' :: after))

section Insertions

theorem exists_front (before : List Char) : ∃ (front : List (List Char)) (left : List Char),
    left <:+ before ∧ '\n' ∉ left ∧
      ∀ rest, (before ++ rest).splitOn '\n' = front ++ (left ++ rest).splitOn '\n' := by
  by_cases hmem : '\n' ∈ before
  -- The last line break is the first one read backwards.
  · obtain ⟨left, front, hbefore, hleft⟩ := List.eq_append_cons_of_mem (List.mem_reverse.2 hmem)
    obtain rfl : before = front.reverse ++ '\n' :: left.reverse := by
      rw [← List.reverse_reverse before, hbefore]
      simp
    refine ⟨front.reverse.splitOn '\n', left.reverse, ⟨front.reverse ++ ['\n'], by simp⟩,
      by simpa using hleft, ?_⟩
    intro rest
    rw [List.append_assoc, List.cons_append, List.splitOn_append_cons_self]
  · exact ⟨[], before, List.suffix_rfl, hmem, fun _ => rfl⟩

theorem exists_back (after : List Char) : ∃ (right : List Char) (back : List (List Char)),
    right <+: after ∧ '\n' ∉ right ∧
      ∀ line, '\n' ∉ line → (line ++ after).splitOn '\n' = (line ++ right) :: back := by
  by_cases hmem : '\n' ∈ after
  · obtain ⟨right, back, rfl, hright⟩ := List.eq_append_cons_of_mem hmem
    refine ⟨right, back.splitOn '\n', ⟨'\n' :: back, rfl⟩, hright, ?_⟩
    intro line hline
    have hboth : '\n' ∉ line ++ right := by simp [hline, hright]
    rw [← List.append_assoc, List.splitOn_append_cons_self, List.splitOn_eq_singleton hboth,
      List.singleton_append]
  · refine ⟨after, [], List.prefix_rfl, hmem, ?_⟩
    intro line hline
    exact List.splitOn_eq_singleton (by simp [hline, hmem])

/-- Text put in between two others is put in one line, when it has no line break. -/
theorem exists_line_around (before after : List Char) :
    ∃ (front : List (List Char)) (left right : List Char) (back : List (List Char)),
      left <:+ before ∧ right <+: after ∧
      '\n' ∉ right ∧ ∀ middle, '\n' ∉ middle →
        (before ++ (middle ++ after)).splitOn '\n' =
          front ++ (left ++ (middle ++ right)) :: back := by
  obtain ⟨front, left, hleft, hl, hfront⟩ := exists_front before
  obtain ⟨right, back, hright, hr, hback⟩ := exists_back after
  refine ⟨front, left, right, back, hleft, hright, hr, ?_⟩
  intro middle hmiddle
  rw [hfront, ← List.append_assoc, hback (left ++ middle) (by simp [hl, hmiddle]),
    List.append_assoc]

theorem wordsOf_ofList (text : List Char) :
    wordsOf (String.ofList text) = (text.splitOn '\n').map labels := by
  rw [wordsOf, lines_eq_splitOn, String.toList_ofList]

/-- Only the line in which text is put can have other words. -/
theorem wordsOf_insert {before middle after : List Char} (hmiddle : '\n' ∉ middle)
    (h : ∀ left right, left <:+ before → right <+: after → '\n' ∉ right →
      labels (left ++ (middle ++ right)) = labels (left ++ right)) :
    wordsOf (String.ofList (before ++ (middle ++ after))) =
      wordsOf (String.ofList (before ++ after)) := by
  obtain ⟨front, left, right, back, hleft, hright, hr, hlines⟩ := exists_line_around before after
  have hline := h left right hleft hright hr
  have hbare : (before ++ after).splitOn '\n' = front ++ (left ++ right) :: back :=
    hlines [] List.not_mem_nil
  rw [wordsOf_ofList, wordsOf_ofList, hlines middle hmiddle, hbare]
  simp only [List.map_append, List.map_cons, hline]

theorem takeWhile_of_notMem {line : List Char} (h : '#' ∉ line) (rest : List Char) :
    (line ++ rest).takeWhile (· != '#') = line ++ rest.takeWhile (· != '#') :=
  List.takeWhile_append_of_pos fun _ hc => bne_iff_ne.2 fun heq => h (heq ▸ hc)

/-- Nothing is read behind a number sign. -/
theorem labels_append_of_mem {line : List Char} (h : '#' ∈ line) (rest : List Char) :
    labels (line ++ rest) = labels line := by
  obtain ⟨front, back, rfl, hfront⟩ := List.eq_append_cons_of_mem h
  rw [labels, labels, List.append_assoc, takeWhile_of_notMem hfront, takeWhile_of_notMem hfront]
  rfl

theorem labels_append_of_notMem {line : List Char} (h : '#' ∉ line) (rest : List Char) :
    labels (line ++ rest) =
      (Text.runs Text.isBlank (line ++ rest.takeWhile (· != '#'))).map String.ofList := by
  rw [labels, takeWhile_of_notMem h]

theorem labels_comment (line note : List Char) : labels (line ++ '#' :: note) = labels line := by
  by_cases h : '#' ∈ line
  · exact labels_append_of_mem h _
  · have hline := labels_append_of_notMem h []
    rw [List.append_nil] at hline
    rw [labels_append_of_notMem h, hline]
    rfl

theorem labels_insert_blank {left right : List Char} {c : Char} (hc : Text.isBlank c = true)
    (h : (∀ d ∈ left.getLast?, Text.isBlank d = true) ∨ ∀ d ∈ right.head?, Text.isBlank d = true) :
    labels (left ++ c :: right) = labels (left ++ right) := by
  by_cases hleft : '#' ∈ left
  · rw [labels_append_of_mem hleft, labels_append_of_mem hleft]
  have hsign : '#' ∉ [c] := by
    rw [List.mem_singleton]
    rintro rfl
    exact absurd hc (by decide)
  have hblank : (c :: right).takeWhile (· != '#') = c :: right.takeWhile (· != '#') :=
    takeWhile_of_notMem hsign right
  -- The comment may begin right behind the blank: then the words before it end with the line.
  have hcut : (∀ d ∈ left.getLast?, Text.isBlank d = true) ∨
      ∀ d ∈ (right.takeWhile (· != '#')).head?, Text.isBlank d = true := by
    refine h.imp_right fun hright d hd => hright d ?_
    rw [List.head?_takeWhile] at hd
    exact (Option.mem_filter_iff.1 hd).1
  rw [labels_append_of_notMem hleft, labels_append_of_notMem hleft, hblank,
    Text.runs_append_cut hc, Text.runs_append hcut]

theorem labels_of_blanks {line : List Char} (h : ∀ c ∈ line, Text.isBlank c = true) :
    labels line = [] := by
  rw [labels, Text.runs_eq_nil fun c hc => h c ((List.takeWhile_prefix _).mem hc)]
  rfl

end Insertions

section Changes

theorem wordsOf_blank {before after : List Char} {c : Char} (hc : Text.isBlank c = true)
    (hne : c ≠ '\n') (h : (∀ d ∈ before.getLast?, Text.isBlank d = true) ∨
      ∀ d ∈ after.head?, Text.isBlank d = true) :
    wordsOf (String.ofList (before ++ c :: after)) = wordsOf (String.ofList (before ++ after)) := by
  have hline : '\n' ∉ [c] := by simpa using hne.symm
  rw [← List.singleton_append]
  refine wordsOf_insert hline ?_
  intro left right hleft hright _
  apply labels_insert_blank hc
  -- What stands beside the blank in its line stands beside it in the text.
  refine h.imp (fun hbefore d hd => hbefore d ?_) fun hafter d hd => hafter d ?_
  · obtain ⟨front, rfl⟩ := hleft
    exact List.mem_getLast?_append_of_mem_getLast? hd
  · obtain ⟨back, rfl⟩ := hright
    exact List.mem_head?_append_of_mem_head? hd

theorem parse_of_retouched {text other : List Char} (h : Retouched text other) :
    parse (String.ofList text) = parse (String.ofList other) := by
  cases h with
  | carriageReturn before after =>
      exact (parse_congr (wordsOf_blank (by decide) (by decide)
        (.inr (by rintro d ⟨⟩; decide)))).symm
  | finalNewline =>
      refine (parse_of_concat_nil ?_).symm
      rw [wordsOf_ofList, wordsOf_ofList, List.splitOn_append_cons_self, List.map_append]
      rfl
  | comment before note after hnote hafter =>
      refine (parse_congr (wordsOf_insert (by simp [hnote]) ?_)).symm
      intro left right _ hright hline
      -- The comment runs up to the end of the line.
      obtain rfl : right = [] := by
        obtain ⟨back, rfl⟩ := hright
        cases right with
        | nil => rfl
        | cons c right => exact absurd (hafter c rfl) fun heq => hline (heq ▸ List.mem_cons_self)
      rw [List.append_nil, List.append_nil]
      exact labels_comment left note
  | blank before after hc hne h => exact (parse_congr (wordsOf_blank hc hne h)).symm

theorem verdict_of_restyled {text other : List Char} (h : Restyled text other) :
    verdict (wordsOf (String.ofList text)) = verdict (wordsOf (String.ofList other)) := by
  cases h with
  | retouched h => rw [← mapError_parse, ← mapError_parse, parse_of_retouched h]
  | blankLine before blanks after hbefore hline hblanks =>
      rw [← verdict_filter, ← verdict_filter (wordsOf (String.ofList (before ++ _))),
        wordsOf_ofList, wordsOf_ofList]
      have hafter : (blanks ++ '\n' :: after).splitOn '\n' = blanks :: after.splitOn '\n' := by
        rw [List.splitOn_append_cons_self, List.splitOn_eq_singleton hline, List.singleton_append]
      rcases List.eq_nil_or_concat' before with rfl | ⟨front, c, rfl⟩
      · rw [List.nil_append, List.nil_append, hafter, List.map_cons, labels_of_blanks hblanks,
          List.filter_cons_of_neg (by simp)]
      · obtain rfl : c = '\n' := hbefore c (by simp)
        rw [List.append_assoc, List.append_assoc, List.singleton_append, List.singleton_append,
          List.splitOn_append_cons_self, List.splitOn_append_cons_self, hafter, List.map_append,
          List.map_append, List.map_cons, labels_of_blanks hblanks, List.filter_append,
          List.filter_append, List.filter_cons_of_neg (by simp)]

end Changes

/-! ## The outcome -/

theorem mem_word {text : String} {line : List String} {word : String} (hline : line ∈ wordsOf text)
    (hword : word ∈ line) :
    word ≠ "" ∧ ∀ c ∈ word.toList, Text.isBlank c = false ∧ c ≠ '#' := by
  obtain ⟨chars, -, rfl⟩ := List.mem_map.1 hline
  obtain ⟨hne, hchars⟩ := (labels_eq_iff.1 rfl).mem_word (List.mem_map_of_mem hword)
  refine ⟨?_, fun c hc => ⟨(hchars c hc).1, ?_⟩⟩
  · rintro rfl
    exact hne rfl
  · simpa using List.mem_takeWhile_imp (hchars c hc).2

/-- The labels, the neighbours and the number of edges that a text is read as. -/
theorem said_of_parse {text : String} {g : LabeledGraph String} (hg : parse text = .ok g) :
    g.labels.toList = (wordsOf text).flatten.eraseDups ∧
      (∀ v ∈ g.labels.toList,
        g.neighborsOf? v =
          .ok (some (LabeledGraph.targetsFrom v ((wordsOf text).filterMap edge?)))) ∧
      g.edgeCount = (wordsOf text).countP (·.length = 2) := by
  have hshort := exists_parse_iff.1 ⟨g, hg⟩
  have hmade := mapError_eq_ok_iff.1 ((parse_of_short hshort).symm.trans hg)
  have hholds := LabeledGraph.holds_of_addAll hmade
  rw [filterMap_edge?_additions] at hholds
  refine ⟨?_, ?_, ?_⟩
  · rw [LabeledGraph.labels_of_addAll hmade, flatMap_mentions hshort]
  · intro v hv
    obtain ⟨i, hi⟩ := hholds.consistent.exists_indexOf_iff.2 ⟨v, Array.mem_toList_iff.1 hv, BEq.rfl⟩
    obtain ⟨names, hnames, heq⟩ := hholds.neighborsOf hi
    rw [hnames, eq_of_beq heq]
  · rw [hholds.edgeCount, length_filterMap_edge?]

/-- A text is read iff none of its lines has more than two words; otherwise the first line that has
more is refused, by its number and the number of its words. The labels are the words in the order
in which they first appear, a label has as its neighbours the second words of the lines of two
words that begin with it, and there are as many edges as lines of two words. Carriage returns, a
last line break, comments and further blanks change nothing, and lines of blanks nothing but the
number of a refused line. -/
theorem parse_outcome (raw : String) : ∃ words, (∀ found, LineWords raw found ↔ found = words) ∧
    ((∃ g, parse raw = .ok g) ↔ ∀ line ∈ words, line.length ≤ 2) ∧
    (∀ before line after, words = before ++ line :: after →
      (∀ earlier ∈ before, earlier.length ≤ 2) → 2 < line.length →
      parse raw = .error (.tooManyLabels (before.length + 1) line.length)) ∧
    (∀ g, parse raw = .ok g → g.labels.toList = words.flatten.eraseDups ∧
      (∀ v ∈ g.labels.toList, (v ≠ "" ∧ ∀ c ∈ v.toList, Text.isBlank c = false ∧ c ≠ '#') ∧
        g.neighborsOf? v = .ok (some (LabeledGraph.targetsFrom v (words.filterMap edge?)))) ∧
      g.edgeCount = words.countP (·.length = 2)) ∧
    (∀ other : String, Relation.EqvGen Retouched raw.toList other.toList →
      parse other = parse raw) ∧
    ∀ other : String, Relation.EqvGen Restyled raw.toList other.toList →
      (parse other).mapError EdgeListError.labels? =
        (parse raw).mapError EdgeListError.labels? := by
  refine ⟨wordsOf raw, fun _ => lineWords_iff, exists_parse_iff, fun _ _ _ => parse_of_long, ?_, ?_,
    ?_⟩
  · intro g hg
    obtain ⟨hlabels, hneighbors, hedges⟩ := said_of_parse hg
    refine ⟨hlabels, fun v hv => ⟨?_, hneighbors v hv⟩, hedges⟩
    rw [hlabels, List.mem_eraseDups] at hv
    obtain ⟨line, hline, hword⟩ := List.mem_flatten.1 hv
    exact mem_word hline hword
  · intro other h
    have heq := congrArg (Quot.lift (fun text => parse (String.ofList text))
      fun _ _ => parse_of_retouched) (Quot.eqvGen_sound h)
    simpa using heq.symm
  · intro other h
    have heq := congrArg (Quot.lift (fun text => verdict (wordsOf (String.ofList text)))
      fun _ _ => verdict_of_restyled) (Quot.eqvGen_sound h)
    simpa [mapError_parse] using heq.symm

/-- The third line is refused, with or without the comment, the carriage return and the last line
break. -/
theorem parse_outcome_third_line :
    parse "b a # c\n\nb c d\n" = .error (.tooManyLabels 3 3) ∧
      parse "b a\r\n\nb c d" = .error (.tooManyLabels 3 3) := by
  obtain ⟨words, hwords, -, hlong, -, hretouched, -⟩ := parse_outcome "b a # c\n\nb c d\n"
  obtain rfl : [["b", "a"], [], ["b", "c", "d"], []] = words :=
    (hwords _).1 (lineWords_iff.2 (by decide))
  have hrefused := hlong [["b", "a"], []] _ _ rfl (by decide) (by decide)
  refine ⟨hrefused, (hretouched _ ?_).trans hrefused⟩
  have hcomment := Retouched.comment "b a ".toList " c".toList "\n\nb c d\n".toList (by decide)
    (by rintro c ⟨⟩; rfl)
  have hblank := Retouched.blank "b a".toList "\n\nb c d\n".toList (c := ' ') (by decide)
    (by decide) (.inr (by rintro d ⟨⟩; decide))
  have hreturn := Retouched.carriageReturn "b a".toList "\nb c d\n".toList
  have hlast := Retouched.finalNewline "b a\r\n\nb c d".toList
  have hbare := (Relation.EqvGen.rel _ _ hcomment).symm.trans _ _ _ (.symm _ _ (.rel _ _ hblank))
  exact (hbare.trans _ _ _ (.rel _ _ hreturn)).trans _ _ _ (.symm _ _ (.rel _ _ hlast))

end EdgeList

end StrongComponents
