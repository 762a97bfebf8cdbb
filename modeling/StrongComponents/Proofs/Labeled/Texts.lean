import StrongComponents.Proofs.Labeled.Numbering

/-!
# Texts of labels

Reports name vertices by the texts of their labels. Texts and integers can be told apart by their
texts (`LawfulLabel`), so in a consistent graph with such labels every text belongs to one vertex:
`textOf` and `vertexOf` are inverse to each other (`vertexOf_textOf`, `textOf_vertexOf`).
-/

set_option autoImplicit false

namespace StrongComponents

/-- Labels that are equal if they have the same text. -/
class LawfulLabel (V : Type) [Label V] : Prop where
  eq_of_text_eq : ∀ {a b : V}, Label.text a = Label.text b → a = b

instance : LawfulLabel String where
  eq_of_text_eq h := h

/-- The decimal digits of a number say which number it is. -/
theorem toDigits_inj {m n : Nat} (h : Nat.toDigits 10 m = Nat.toDigits 10 n) : m = n := by
  have hm : Nat.ofDigitChars 10 (Nat.toDigits 10 m) 0 = m :=
    Nat.ofDigitChars_toDigits (by decide) (Nat.le_refl 10)
  rw [← hm, h]
  exact Nat.ofDigitChars_toDigits (by decide) (Nat.le_refl 10)

/-- A minus sign is no digit, so no number that is not negative begins with one. -/
theorem toDigits_ne_minus (m n : Nat) : Nat.toDigits 10 m ≠ '-' :: Nat.toDigits 10 n := by
  intro h
  have hdigit : Char.isDigit '-' = true := by
    apply Nat.isDigit_of_mem_toDigits (b := 10) (n := m) (by decide) (Nat.le_refl 10)
    rw [h]
    exact List.mem_cons_self
  cases hdigit

/-- The decimal text of an integer says which integer it is. -/
theorem intText_inj {i j : Int} (h : intText i = intText j) : i = j := by
  unfold intText at h
  split at h <;> split at h
  · have hab := toDigits_inj (List.cons.inj h).2
    omega
  · exact absurd h.symm (toDigits_ne_minus _ _)
  · exact absurd h (toDigits_ne_minus _ _)
  · have hab := toDigits_inj h
    omega

instance : LawfulLabel Int where
  eq_of_text_eq h := intText_inj (String.ofList_inj.1 h)

namespace LabeledGraph

variable {V : Type} [BEq V] [Hashable V] [Label V]

/-- The texts of the labels in the order of the vertices. -/
def texts (g : LabeledGraph V) : List String := g.labels.toList.map Label.text

/-- The text of the label of a vertex. -/
def textOf (g : LabeledGraph V) (v : Nat) : String := g.texts[v]?.getD ""

/-- The vertex whose label has a given text. -/
def vertexOf (g : LabeledGraph V) (text : String) : Nat := g.texts.idxOf text

variable {g : LabeledGraph V}

namespace Consistent

theorem length_texts (hg : g.Consistent) : g.texts.length = g.graph.vertexCount := by
  rw [texts, List.length_map, Array.length_toList, hg.vertexCount_eq]

theorem getElem?_texts (hg : g.Consistent) {v : Nat} (hv : v < g.graph.vertexCount) :
    g.texts[v]? = some (g.textOf v) := by
  rw [← hg.length_texts] at hv
  rw [textOf, List.getElem?_eq_getElem hv, Option.getD_some]

/-- The texts are those of the vertices in order. -/
theorem texts_eq_map (hg : g.Consistent) :
    g.texts = (List.range g.graph.vertexCount).map g.textOf := by
  apply List.ext_getElem?
  intro v
  rw [List.getElem?_map]
  rcases Nat.lt_or_ge v g.graph.vertexCount with hv | hv
  · rw [hg.getElem?_texts hv, List.getElem?_range hv, Option.map_some]
  · rw [List.getElem?_eq_none (hg.length_texts ▸ hv), List.getElem?_eq_none (by simpa using hv),
      Option.map_none]

/-- A label belongs to the vertex with its number. -/
theorem textOf_of_label {v : Nat} {a : V} (ha : g.label v = .ok a) : g.textOf v = Label.text a := by
  rw [label_eq_ok_iff, ← Array.getElem?_toList] at ha
  rw [textOf, texts, List.getElem?_map, ha]
  rfl

theorem vertexOf_lt (hg : g.Consistent) {text : String} (h : text ∈ g.texts) :
    g.vertexOf text < g.graph.vertexCount :=
  hg.length_texts ▸ List.idxOf_lt_length_iff.2 h

theorem textOf_vertexOf {text : String} (h : text ∈ g.texts) :
    g.textOf (g.vertexOf text) = text := by
  rw [textOf, vertexOf, List.getElem?_idxOf h, Option.getD_some]

variable [EquivBEq V] [LawfulLabel V]

/-- No text occurs twice. -/
theorem nodup_texts (hg : g.Consistent) : g.texts.Nodup := by
  rw [texts, List.Nodup, List.pairwise_map]
  apply hg.distinct.imp
  intro a b hne htext
  rw [LawfulLabel.eq_of_text_eq htext, BEq.rfl] at hne
  cases hne

theorem vertexOf_textOf (hg : g.Consistent) {v : Nat} (hv : v < g.graph.vertexCount) :
    g.vertexOf (g.textOf v) = v := by
  have hlt : v < g.texts.length := hg.length_texts.symm ▸ hv
  have htext : g.texts[v] = g.textOf v :=
    Option.some.inj ((List.getElem?_eq_getElem hlt).symm.trans (hg.getElem?_texts hv))
  rw [vertexOf, ← htext]
  exact hg.nodup_texts.idxOf_getElem v hlt

/-- Vertices with the same text are the same. -/
theorem textOf_inj (hg : g.Consistent) {u v : Nat} (hu : u < g.graph.vertexCount)
    (hv : v < g.graph.vertexCount) :
    g.textOf u = g.textOf v ↔ u = v := by
  constructor
  · intro h
    rw [← hg.vertexOf_textOf hu, h, hg.vertexOf_textOf hv]
  · exact fun h => congrArg g.textOf h

end Consistent

end LabeledGraph

end StrongComponents
