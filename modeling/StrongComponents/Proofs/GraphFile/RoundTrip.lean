import StrongComponents.GraphFile.Reader
import StrongComponents.Proofs.Json.RoundTrip

/-!
# Reading graph files back

A graph file is read back from its text as it was (`parse_text_of_writable`). The text is that of a
JSON value, so it is read into a tree that holds the value. The reader of a file then goes through
the tree in the way in which the file was written, part by part.
-/

set_option autoImplicit false

namespace StrongComponents.GraphFile

/-- A file that can be written: its references are 64-bit integers or texts, and its other fields
are in order and have names of their own and values with 64-bit integers for numbers. -/
structure Writable (file : GraphFile) : Prop where
  references : ∀ entry ∈ file.adjacency, ∀ i, .number i ∈ entry.2 → isInt64 i = true
  sorted : Json.sortMembers file.extra = file.extra
  names : ∀ member ∈ file.extra, member.1 ≠ nameField ∧ member.1 ≠ adjacencyField
  canonical : ∀ member ∈ file.extra, member.2.canonical = member.2
  /-- The fields stand one bracket deep in the file. -/
  readable : ∀ member ∈ file.extra, member.2.Readable (Tree.nestingLimit - 2)

/-! ## Neighbour lists -/

theorem readValue_eq_ok_iff {tree : Tree} {value : Json} :
    readValue tree = .ok value ↔ tree.toJson = .ok value :=
  mapError_eq_ok_iff

theorem canonical_toJson (ref : VertexRef) : ref.toJson.canonical = ref.toJson := by
  cases ref with
  | number i => rfl
  | name s => rfl

theorem reference?_toJson {ref : VertexRef} (h : ∀ i, ref = .number i → isInt64 i = true) :
    reference? ref.toJson = some ref := by
  cases ref with
  | number i => exact if_pos (h i rfl)
  | name s => rfl

theorem readReferences_of_holds {refs : List VertexRef}
    (hrefs : ∀ i, .number i ∈ refs → isInt64 i = true) {trees : List (Tree × Nat)}
    (h : Tree.HoldsItems (refs.map VertexRef.toJson) trees) :
    readReferences trees = .ok refs := by
  induction refs generalizing trees with
  | nil =>
      cases h
      rfl
  | cons ref refs ih =>
      obtain ⟨tree, after, others, rfl, htree, hothers⟩ := h
      have hvalue : readValue tree = .ok ref.toJson := by
        rw [readValue_eq_ok_iff, Tree.toJson_of_holds htree, canonical_toJson]
      have href : reference? ref.toJson = some ref := by
        apply reference?_toJson
        rintro i rfl
        exact hrefs i List.mem_cons_self
      have hrest := ih (fun i hi => hrefs i (List.mem_cons_of_mem _ hi)) hothers
      rw [readReferences, hvalue]
      simp only [bind, Except.bind, href, hrest]
      rfl

theorem readEntries_of_holds {entries : List (String × List VertexRef)}
    (hentries : ∀ entry ∈ entries, ∀ i, .number i ∈ entry.2 → isInt64 i = true)
    {trees : List (Key × Tree)}
    (h : Tree.HoldsMembers (entries.map fun (v, refs) => (v, .array (refs.map VertexRef.toJson)))
      trees) :
    readEntries trees = .ok entries := by
  induction entries generalizing trees with
  | nil =>
      cases h
      rfl
  | cons entry entries ih =>
      obtain ⟨v, refs⟩ := entry
      obtain ⟨key, tree, others, rfl, rfl, ⟨start, items, rfl, hitems⟩, hothers⟩ := h
      have hrefs : readReferences items = .ok refs :=
        readReferences_of_holds (hentries _ List.mem_cons_self) hitems
      have hrest := ih (fun entry hmem => hentries entry (List.mem_cons_of_mem _ hmem)) hothers
      rw [readEntries, readNeighbors, hrefs]
      simp only [bind, Except.bind, finish, hrest]
      rfl

theorem readAdjacency_of_holds {file : GraphFile} (hfile : file.Writable) {tree : Tree}
    (h : Tree.Holds file.adjacencyJson tree) : readAdjacency tree = .ok file.adjacency := by
  obtain ⟨start, members, rfl, hmembers⟩ := h
  rw [readAdjacency, readEntries_of_holds hfile.references hmembers]
  rfl

/-! ## Fields -/

/-- Fields of other names are added in order. -/
theorem addAll_extra (fields : Fields) {extra : List (String × Json)}
    (hextra : ∀ member ∈ extra, (member.1 ≠ nameField ∧ member.1 ≠ adjacencyField) ∧
      member.2.canonical = member.2) {trees : List (Key × Tree)}
    (h : Tree.HoldsMembers extra trees) :
    fields.addAll trees = .ok { fields with extra := fields.extra ++ extra } := by
  induction extra generalizing fields trees with
  | nil =>
      cases h
      rw [List.append_nil]
      rfl
  | cons member extra ih =>
      obtain ⟨name, value⟩ := member
      obtain ⟨key, tree, others, rfl, rfl, htree, hothers⟩ := h
      obtain ⟨⟨hname, hadjacency⟩, hcanonical⟩ := hextra _ List.mem_cons_self
      have hvalue : readValue tree = .ok value := by
        rw [readValue_eq_ok_iff, Tree.toJson_of_holds htree, hcanonical]
      have hadd : fields.add key tree =
          .ok { fields with extra := fields.extra ++ [(key.name, value)] } := by
        rw [Fields.add, if_neg hname, if_neg hadjacency, hvalue]
        rfl
      rw [Fields.addAll, hadd]
      simp only [bind, Except.bind]
      rw [ih _ (fun member hmem => hextra member (List.mem_cons_of_mem _ hmem)) hothers]
      simp

theorem add_name (fields : Fields) (hnone : fields.name = none) (s : String) {key : Key}
    (hkey : key.name = nameField) {tree : Tree} (h : Tree.Holds (Json.ofString s) tree) :
    fields.add key tree = .ok { fields with name := some (some s) } := by
  obtain ⟨stop, rfl⟩ := h
  rw [Fields.add, if_pos hkey, hnone]
  rfl

theorem add_adjacency (fields : Fields) (hnone : fields.adjacency = none) {file : GraphFile}
    (hfile : file.Writable) {key : Key} (hkey : key.name = adjacencyField) {tree : Tree}
    (h : Tree.Holds file.adjacencyJson tree) :
    fields.add key tree = .ok { fields with adjacency := some file.adjacency } := by
  have hdistinct : key.name ≠ nameField := by
    rw [hkey]
    decide
  rw [Fields.add, if_neg hdistinct, if_pos hkey, hnone, readAdjacency_of_holds hfile h]
  rfl

/-- The neighbour lists and the fields after them. -/
theorem addAll_of_adjacency (fields : Fields) (hnone : fields.adjacency = none) {file : GraphFile}
    (hfile : file.Writable) {trees : List (Key × Tree)}
    (h : Tree.HoldsMembers ((adjacencyField, file.adjacencyJson) :: file.extra) trees) :
    fields.addAll trees =
      .ok
        { fields with adjacency := some file.adjacency, extra := fields.extra ++ file.extra } := by
  obtain ⟨key, tree, others, rfl, hkey, htree, hothers⟩ := h
  rw [Fields.addAll, add_adjacency fields hnone hfile hkey htree]
  exact addAll_extra _ (fun member hmem => ⟨hfile.names member hmem, hfile.canonical member hmem⟩)
    hothers

/-- The tree of a file is read as the file. -/
theorem ofTree_of_holds {file : GraphFile} (hfile : file.Writable) {tree : Tree}
    (h : Tree.Holds file.toJson tree) :
    ofTree tree = .ok file := by
  obtain ⟨start, trees, rfl, htrees⟩ := h
  have hfields : Fields.addAll ⟨none, none, []⟩ trees =
      .ok ⟨file.name.map some, some file.adjacency, file.extra⟩ := by
    cases hname : file.name with
    | none =>
        rw [hname] at htrees
        exact addAll_of_adjacency _ rfl hfile htrees
    | some s =>
        rw [hname] at htrees
        obtain ⟨key, tree, others, rfl, hkey, htree, hothers⟩ := htrees
        rw [Fields.addAll, add_name _ rfl s hkey htree]
        exact addAll_of_adjacency _ rfl hfile hothers
  have hfile' : ofFields ⟨file.name.map some, some file.adjacency, file.extra⟩ = file := by
    rw [ofFields, hfile.sorted]
    cases file with
    | mk name adjacency extra => cases name <;> rfl
  rw [ofTree, hfields]
  exact congrArg Except.ok hfile'

/-! ## Texts -/

theorem readable_adjacencyJson {file : GraphFile} (hfile : file.Writable) (room : Nat) :
    Json.Readable (room + 2) file.adjacencyJson := by
  apply Json.Readable.object
  intro member hmem
  obtain ⟨⟨v, refs⟩, hentry, rfl⟩ := List.mem_map.1 hmem
  apply Json.Readable.array
  intro item hitem
  obtain ⟨ref, href, rfl⟩ := List.mem_map.1 hitem
  cases ref with
  | name s => exact .scalar nofun
  | number i =>
      have hint := hfile.references _ hentry i href
      simp only [isInt64, Bool.and_eq_true, decide_eq_true_eq] at hint
      apply Json.Readable.scalar
      rintro n ⟨⟩
      exact ⟨hint.1, by omega⟩

theorem readable_toJson {file : GraphFile} (hfile : file.Writable) :
    Json.Readable (Tree.nestingLimit - 1) file.toJson := by
  show Json.Readable (Tree.nestingLimit - 2 + 1) file.toJson
  apply Json.Readable.object
  intro member hmem
  rcases List.mem_append.1 hmem with hname | hmem
  · obtain ⟨s, -, rfl⟩ := List.mem_map.1 hname
    exact .scalar nofun
  · rcases List.mem_cons.1 hmem with rfl | hextra
    · exact readable_adjacencyJson hfile (Tree.nestingLimit - 4)
    · exact hfile.readable member hextra

theorem parse_eq_ok_iff {raw : String} {file : GraphFile} :
    parse raw = .ok file ↔
      ofTree (TextTree.ofText raw.toList).root = .ok file ∧
        (TextTree.ofText raw.toList).trailing = none := by
  rw [parse, mapError_eq_ok_iff, TextTree.interpret_eq_ok_iff]

/-- The text of a file is a tree in which the file is found. -/
theorem exists_ofText {file : GraphFile} (h : file.Writable) :
    ∃ tree, TextTree.ofText file.text.toList = ⟨tree, none⟩ ∧ ofTree tree = .ok file := by
  obtain ⟨tree, hholds, htext⟩ :=
    (readable_toJson h).ofText (by decide) Json.Layout.blank_compact 0
  rw [text, Json.text, String.toList_ofList]
  exact ⟨tree, htext, ofTree_of_holds h hholds⟩

/-- A file is read back from its text: the name if there is one, the entries in their order with
repeated ones among them, every reference as the integer or text that it was, and the other fields.
The numbers in these are integers of 64 bits. -/
theorem parse_text_of_writable (file : GraphFile) (h : file.Writable) :
    parse file.text = .ok file := by
  obtain ⟨tree, htext, htree⟩ := exists_ofText h
  rw [parse_eq_ok_iff, htext]
  exact ⟨htree, rfl⟩

/-- A vertex is declared twice, with references at the bounds and one that is a text of digits. The
name has a quotation mark, a control character and a character outside the basic plane, and one of
the other fields is the greatest word of 64 bits. -/
theorem parse_text_of_writable_hard :
    ∃ file : GraphFile, file.name = some "\"\x01😀" ∧
      file.adjacency = [("v", [.number (-0x8000000000000000), .name "7"]),
        ("v", [.number 0x7FFFFFFFFFFFFFFF])] ∧
      file.extra = [("a", .object [("b", .array [.scalar .null])]),
        ("c", .scalar (.number (.int 0xFFFFFFFFFFFFFFFF)))] ∧
      file.Writable ∧ parse file.text = .ok file := by
  have hwritable : Writable ⟨some "\"\x01😀",
      [("v", [.number (-0x8000000000000000), .name "7"]), ("v", [.number 0x7FFFFFFFFFFFFFFF])],
      [("a", .object [("b", .array [.scalar .null])]),
        ("c", .scalar (.number (.int 0xFFFFFFFFFFFFFFFF)))]⟩ := by
    refine ⟨?_, rfl, ?_, ?_, ?_⟩
    · simp [isInt64]
    · simp [nameField, adjacencyField]
    · exact List.forall_mem_cons.2 ⟨rfl, List.forall_mem_singleton.2 rfl⟩
    · refine List.forall_mem_cons.2 ⟨?_, List.forall_mem_singleton.2 (.scalar ?_)⟩
      · exact .object (List.forall_mem_singleton.2
          (.array (List.forall_mem_singleton.2 (.scalar nofun))))
      · rintro n ⟨⟩
        exact ⟨by decide, by decide⟩
  exact ⟨_, rfl, rfl, rfl, hwritable, parse_text_of_writable _ hwritable⟩

/-- The greatest integer below `2 ^ 53`, as a floating-point number, is read as the one before it.
So a field with a number that has an integer value need not be read back. -/
theorem parse_text_whole_float :
    ∃ (file : GraphFile) (x : Binary64), x.isIntegral = true ∧
      file.extra = [("x", .scalar (.number (.float x)))] ∧ parse file.text ≠ .ok file := by
  refine ⟨⟨none, [], [("x", .scalar (.number (.float ⟨false, 9007199254740991, 0⟩)))]⟩, _, ?_,
    rfl, ?_⟩
  · decide
  · intro hparse
    have hread : (parse "\x7b\"adjacency\":\x7b\x7d,\"x\":9007199254740991.0\x7d").toOption.map
        text = some "\x7b\"adjacency\":\x7b\x7d,\"x\":9007199254740990.0\x7d" := by
      decide +kernel
    have htext : text ⟨none, [], [("x", .scalar (.number (.float ⟨false, 9007199254740991, 0⟩)))]⟩ =
        "\x7b\"adjacency\":\x7b\x7d,\"x\":9007199254740991.0\x7d" := by
      decide +kernel
    rw [htext] at hparse
    rw [hparse] at hread
    exact absurd (htext.symm.trans (Option.some.inj hread)) (by decide)

end StrongComponents.GraphFile
