import StrongComponents.Proofs.GraphFile.Coverage
import StrongComponents.Proofs.Labeled.Description

/-!
# Which graph files are accepted

A file is checked twice: as a document, which keeps only the last entry of a vertex, and as a
description of a graph, in which all entries count. The first check is about empty texts only, as
a file has nothing else that a document may not have (`adjacencyViolations_eq_nil_iff`); the
second one is about repeated vertices and missing ones. Both see the labels that are referred to
and not how they are written, so it makes no difference whether a reference is a number or the
text of that number (`validate_congr`).
-/

set_option autoImplicit false

namespace StrongComponents

theorem VertexRef.label_number_ne_empty (i : Int) : (VertexRef.number i).label ≠ "" := by
  intro h
  have hnil : intText i = [] := String.ofList_eq_empty_iff.1 h
  unfold intText at hnil
  split at hnil
  · cases hnil
  · exact Nat.toDigits_ne_nil hnil

namespace GraphFile

/-- The vertices of a file with the labels that their references refer to. -/
def description (file : GraphFile) : List (String × List String) :=
  file.adjacency.map fun entry => (entry.1, entry.2.map VertexRef.label)

/-- The texts that a file may not have: the name of a vertex is empty, or the last entry of a
vertex refers to an empty name. -/
def Misshapen (file : GraphFile) : Prop :=
  (∃ entry ∈ file.adjacency, entry.1 = "") ∨
    ∃ before v refs after, file.adjacency = before ++ (v, refs) :: after ∧
      (∀ later ∈ after, later.1 ≠ v) ∧
      .name "" ∈ refs

/-! ## The document -/

/-- The entries of neighbour lists as members of an object. -/
def listMembers (entries : List (String × List VertexRef)) : List (String × Json) :=
  entries.map fun entry => (entry.1, .array (entry.2.map VertexRef.toJson))

theorem adjacencyViolations_sortedLists (entries : List (String × List VertexRef)) :
    adjacencyViolations (sortedLists entries) =
      (Json.sortMembers (listMembers entries)).flatMap
        (fun member => neighborViolations member.2) ++
        if (Json.sortMembers (listMembers entries)).any (·.1 = "") then [.emptyVertexName] else
          [] := by
  have hsorted := Json.sortMembers_sortMembers (listMembers entries)
  show (Json.sortMembers (Json.sortMembers (listMembers entries))).flatMap
    (fun member => neighborViolations member.2) ++
    (if (Json.sortMembers (listMembers entries)).any (·.1 = "") then [.emptyVertexName] else []) = _
  rw [hsorted]

/-- The members that count are made from the last entry of each vertex. -/
theorem mem_sortMembers_listMembers_iff {entries : List (String × List VertexRef)} {v : String}
    {value : Json} :
    (v, value) ∈ Json.sortMembers (listMembers entries) ↔
      ∃ before refs after, entries = before ++ (v, refs) :: after ∧ (∀ later ∈ after, later.1 ≠ v) ∧
        value = .array (refs.map VertexRef.toJson) := by
  rw [Json.mem_sortMembers_iff]
  constructor
  · rintro ⟨_, _, hsplit, hlater⟩
    obtain ⟨before, rest, rfl, rfl, hrest⟩ := List.map_eq_append_iff.1 hsplit
    obtain ⟨⟨v', refs⟩, after, rfl, hentry, rfl⟩ := List.map_eq_cons_iff.1 hrest
    cases hentry
    exact ⟨before, refs, after, rfl, fun later hmem => hlater _ (List.mem_map_of_mem hmem), rfl⟩
  · rintro ⟨before, refs, after, rfl, hlater, rfl⟩
    refine ⟨listMembers before, listMembers after, by simp [listMembers], ?_⟩
    exact List.forall_mem_map.2 hlater

theorem isReference_toJson (ref : VertexRef) : isReference ref.toJson = true ↔ ref ≠ .name "" := by
  cases ref with
  | number i => simp [VertexRef.toJson, isReference, Number.isIntegral]
  | name s => simp [VertexRef.toJson, Json.ofString, isReference]

theorem neighborViolations_eq_nil_iff_notMem (refs : List VertexRef) :
    neighborViolations (.array (refs.map VertexRef.toJson)) = [] ↔ .name "" ∉ refs := by
  rw [neighborViolations_eq_nil_iff]
  constructor
  · rintro ⟨_, ⟨⟩, hall⟩ hmem
    exact (isReference_toJson _).1 (hall _ (List.mem_map_of_mem hmem)) rfl
  · intro h
    refine ⟨_, rfl, List.forall_mem_map.2 fun ref href => (isReference_toJson ref).2 ?_⟩
    rintro rfl
    exact h href

/-- Neighbour lists are in shape iff no vertex has an empty name and no last entry refers to one. -/
theorem adjacencyViolations_eq_nil_iff (file : GraphFile) :
    adjacencyViolations (sortedLists file.adjacency) = [] ↔ ¬ file.Misshapen := by
  have hnames : (Json.sortMembers (listMembers file.adjacency)).any (·.1 = "") = true ↔
      ∃ entry ∈ file.adjacency, entry.1 = "" := by
    -- Sorting keeps the names, so an empty one is seen.
    have hname : "" ∈ (Json.sortMembers (listMembers file.adjacency)).map Prod.fst ↔ _ :=
      Json.mem_map_fst_sortMembers
    simpa [listMembers] using hname
  have hlists : (∀ member ∈ Json.sortMembers (listMembers file.adjacency),
      neighborViolations member.2 = []) ↔
      ¬ ∃ before v refs after, file.adjacency = before ++ (v, refs) :: after ∧
      (∀ later ∈ after, later.1 ≠ v) ∧ .name "" ∈ refs := by
    constructor
    · rintro hall ⟨before, v, refs, after, hsplit, hlater, hempty⟩
      have hmember := mem_sortMembers_listMembers_iff.2 ⟨before, refs, after, hsplit, hlater, rfl⟩
      exact (neighborViolations_eq_nil_iff_notMem refs).1 (hall _ hmember) hempty
    · rintro hnone ⟨v, value⟩ hmember
      obtain ⟨before, refs, after, hsplit, hlater, rfl⟩ := mem_sortMembers_listMembers_iff.1 hmember
      rw [neighborViolations_eq_nil_iff_notMem]
      exact fun hempty => hnone ⟨before, v, refs, after, hsplit, hlater, hempty⟩
  rw [adjacencyViolations_sortedLists, List.append_eq_nil_iff, List.flatMap_eq_nil_iff, hlists,
    Misshapen, not_or, and_comm, ← hnames]
  simp

/-- The file has no other fields of the names that it writes itself. -/
def PlainExtra (file : GraphFile) : Prop :=
  ∀ member ∈ file.extra, member.1 ≠ nameField ∧ member.1 ≠ adjacencyField

/-- All that can be wrong with the document of a file is in its neighbour lists. -/
theorem violations_document {file : GraphFile} (hextra : file.PlainExtra) :
    violations file.document = adjacencyViolations (sortedLists file.adjacency) := by
  obtain ⟨members, hmembers, hadjacency, hname⟩ := file.exists_members_document hextra
  rw [hmembers, violations, hadjacency, hname]
  cases file.name with
  | none => simp
  | some s => simp [nameViolations, Json.ofString]

/-! ## References by number and by text -/

/-- Entries in which every label is referred to by its text. -/
def spelled (entries : List (String × List String)) : List (String × List VertexRef) :=
  entries.map fun entry => (entry.1, entry.2.map .name)

/-- A neighbour that is an integer becomes the text of the integer. -/
def spellNeighbor : Json → Json
  | .scalar (.number (.int i)) => .ofString (String.ofList (intText i))
  | other => other

/-- Spells the neighbours in a list. -/
def spellList : Json → Json
  | .array items => .array (items.map spellNeighbor)
  | other => other

theorem spellNeighbor_toJson (ref : VertexRef) :
    spellNeighbor ref.toJson = (VertexRef.name ref.label).toJson := by
  cases ref with
  | number i => rfl
  | name s => rfl

theorem listMembers_spelled (file : GraphFile) :
    listMembers (spelled file.description) =
      (listMembers file.adjacency).map fun member => (member.1, spellList member.2) := by
  simp [listMembers, spelled, description, spellList, Function.comp_def, spellNeighbor_toJson]

/-- Neither a number nor the text of one is a fault. -/
theorem neighborViolations_spellList (refs : List VertexRef) :
    neighborViolations (spellList (.array (refs.map VertexRef.toJson))) =
      neighborViolations (.array (refs.map VertexRef.toJson)) := by
  simp only [spellList, neighborViolations, List.map_map, Function.comp_def, spellNeighbor_toJson]
  congr 1
  induction refs with
  | nil => rfl
  | cons ref refs ih =>
      rw [List.map_cons, List.map_cons]
      cases ref with
      | name s => rw [List.filter_cons, List.filter_cons, ih, VertexRef.label]
      | number i =>
          have hnumber : isReference (VertexRef.number i).toJson = true := rfl
          have htext : isReference (VertexRef.name (VertexRef.number i).label).toJson = true := by
            rw [isReference_toJson]
            intro heq
            exact VertexRef.label_number_ne_empty i (VertexRef.name.inj heq)
          rw [List.filter_cons_of_neg (by rw [htext]; decide),
            List.filter_cons_of_neg (by rw [hnumber]; decide), ih]

/-- What is wrong with neighbour lists can be told from the labels that they refer to. -/
theorem adjacencyViolations_spelled (file : GraphFile) :
    adjacencyViolations (sortedLists (spelled file.description)) =
      adjacencyViolations (sortedLists file.adjacency) := by
  rw [adjacencyViolations_sortedLists, adjacencyViolations_sortedLists, listMembers_spelled,
    Json.sortMembers_map fun _ value => spellList value, List.flatMap_map, List.any_map]
  congr 1
  apply List.flatMap_congr
  rintro ⟨v, value⟩ hmember
  obtain ⟨before, refs, after, -, -, rfl⟩ := mem_sortMembers_listMembers_iff.1 hmember
  exact neighborViolations_spellList refs

/-! ## Validation -/

variable {file : GraphFile}

theorem validate_of_misshapen (hextra : file.PlainExtra) (h : file.Misshapen) :
    ∃ found, file.validate = .error ⟨[], .schema found⟩ := by
  rw [← not_not (a := file.Misshapen), ← adjacencyViolations_eq_nil_iff,
    ← violations_document hextra] at h
  cases hfound : violations file.document with
  | nil => exact absurd hfound h
  | cons violation others =>
      refine ⟨violation :: others, ?_⟩
      rw [validate, checkDocument, hfound]
      rfl

theorem validate_of_shape (hextra : file.PlainExtra) (h : ¬ file.Misshapen) :
    file.validate = file.build := by
  rw [← adjacencyViolations_eq_nil_iff, ← violations_document hextra] at h
  rw [validate, checkDocument, h]
  rfl

/-- Files that refer to the same labels are validated alike, errors included. -/
theorem validate_congr {other : GraphFile} (hextra : file.PlainExtra) (hextra' : other.PlainExtra)
    (h : other.description = file.description) : other.validate = file.validate := by
  have hcheck : checkDocument other.document = checkDocument file.document := by
    rw [checkDocument, checkDocument, violations_document hextra, violations_document hextra',
      ← adjacencyViolations_spelled, ← adjacencyViolations_spelled, h]
  have hbuild : other.build = file.build := by
    show during .buildingGraph (failing .graph (LabeledGraph.ofAdjacency other.description)) = _
    rw [h]
    rfl
  rw [validate, validate, hcheck, hbuild]

/-! ## What a file describes -/

theorem map_fst_description (file : GraphFile) :
    file.description.map Prod.fst = file.adjacency.map Prod.fst := by
  simp [description]

theorem distinctKeys_description_iff :
    LabeledGraph.DistinctKeys file.description ↔ (file.adjacency.map Prod.fst).Nodup := by
  rw [LabeledGraph.DistinctKeys, map_fst_description, List.Nodup]
  simp only [beq_eq_false_iff_ne]

theorem declares_description_iff {label : String} :
    LabeledGraph.declares file.description label = true ↔ label ∈ file.adjacency.map Prod.fst := by
  simp [LabeledGraph.declares, description]

theorem forall_listedEdges_description_iff :
    (∀ edge ∈ LabeledGraph.listedEdges file.description,
      LabeledGraph.declares file.description edge.2 = true) ↔
      ∀ entry ∈ file.adjacency, ∀ ref ∈ entry.2, ref.label ∈ file.adjacency.map Prod.fst := by
  simp only [declares_description_iff]
  constructor
  · intro h entry hentry ref href
    apply h (entry.1, ref.label)
    rw [LabeledGraph.mem_listedEdges]
    exact ⟨_, List.mem_map_of_mem hentry, rfl, List.mem_map_of_mem href⟩
  · rintro h ⟨v, w⟩ hedge
    obtain ⟨_, hmem, -, hw⟩ := LabeledGraph.mem_listedEdges.1 hedge
    obtain ⟨entry, hentry, rfl⟩ := List.mem_map.1 hmem
    obtain ⟨ref, href, rfl⟩ := List.mem_map.1 hw
    exact h entry hentry ref href

/-- A file with an empty name among its references has no vertex for it, unless one
has an empty name itself. -/
theorem not_misshapen (hnames : ∀ entry ∈ file.adjacency, entry.1 ≠ "")
    (hrefs : ∀ entry ∈ file.adjacency, ∀ ref ∈ entry.2, ref.label ∈ file.adjacency.map Prod.fst) :
    ¬ file.Misshapen := by
  rintro (⟨entry, hentry, hempty⟩ | ⟨before, v, refs, after, hsplit, -, hempty⟩)
  · exact hnames entry hentry hempty
  · have hentry : (v, refs) ∈ file.adjacency := by simp [hsplit]
    obtain ⟨other, hother, hlabel⟩ := List.mem_map.1 (hrefs _ hentry _ hempty)
    exact hnames other hother hlabel

theorem build_eq_ok_iff {g : LabeledGraph String} :
    file.build = .ok g ↔ LabeledGraph.ofAdjacency file.description = .ok g := by
  show during .buildingGraph (failing .graph (LabeledGraph.ofAdjacency file.description)) = .ok g ↔
    _
  rw [during_eq_ok_iff, failing_eq_ok_iff]

theorem build_of_error {e : GraphError} (h : LabeledGraph.ofAdjacency file.description = .error e) :
    file.build = .error ⟨[.buildingGraph], .graph e⟩ := by
  show during .buildingGraph (failing .graph (LabeledGraph.ofAdjacency file.description)) = _
  rw [h]
  rfl

theorem exists_validate_iff (hextra : file.PlainExtra) :
    (∃ g, file.validate = .ok g) ↔
      (∀ entry ∈ file.adjacency, entry.1 ≠ "") ∧ (file.adjacency.map Prod.fst).Nodup ∧
        ∀ entry ∈ file.adjacency, ∀ ref ∈ entry.2, ref.label ∈ file.adjacency.map Prod.fst := by
  have hbuilt := LabeledGraph.exists_ofAdjacency_iff file.description
  rw [distinctKeys_description_iff, forall_listedEdges_description_iff] at hbuilt
  rw [← hbuilt]
  constructor
  · rintro ⟨g, hg⟩
    have hshape : ¬ file.Misshapen := by
      intro h
      obtain ⟨found, hfound⟩ := validate_of_misshapen hextra h
      cases hg.symm.trans hfound
    rw [validate_of_shape hextra hshape, build_eq_ok_iff] at hg
    exact ⟨fun entry hentry hempty => hshape (.inl ⟨entry, hentry, hempty⟩), g, hg⟩
  · rintro ⟨hnames, g, hg⟩
    refine ⟨g, ?_⟩
    rw [validate_of_shape hextra (not_misshapen hnames (hbuilt.1 ⟨g, hg⟩).2), build_eq_ok_iff]
    exact hg

/-- An accepted file becomes the graph that it describes. -/
theorem described_of_validate {g : LabeledGraph String} (hg : file.validate = .ok g) :
    g.labels.toList = file.adjacency.map Prod.fst ∧
      ∀ entry ∈ file.adjacency, g.neighborsOf? entry.1 =
        .ok (some (entry.2.map VertexRef.label)) := by
  obtain ⟨-, hbuild⟩ := validate_eq_ok_iff.1 hg
  obtain ⟨hlabels, hneighbors⟩ := LabeledGraph.described_of_ofAdjacency (build_eq_ok_iff.1 hbuild)
  refine ⟨hlabels.trans (map_fst_description file), ?_⟩
  intro entry hentry
  obtain ⟨names, hnames, heq⟩ := hneighbors _ (List.mem_map_of_mem hentry)
  rw [hnames, eq_of_beq heq]

/-- A file in shape that is not accepted is refused by what is wrong with its description. -/
theorem exists_error_of_validate (hextra : file.PlainExtra) (hshape : ¬ file.Misshapen)
    {failure : Failure} (hfailure : file.validate = .error failure) :
    ∃ e, LabeledGraph.ofAdjacency file.description = .error e ∧
      failure = ⟨[.buildingGraph], .graph e⟩ := by
  rw [validate_of_shape hextra hshape] at hfailure
  cases hbuilt : LabeledGraph.ofAdjacency file.description with
  | ok g => cases hfailure.symm.trans (build_eq_ok_iff.2 hbuilt)
  | error e =>
      cases hfailure.symm.trans (build_of_error hbuilt)
      exact ⟨e, rfl, rfl⟩

theorem duplicateVertex_of_validate (hextra : file.PlainExtra) (hshape : ¬ file.Misshapen)
    (hkeys : ¬ (file.adjacency.map Prod.fst).Nodup) {failure : Failure}
    (hfailure : file.validate = .error failure) :
    ∃ entry, LabeledGraph.FirstRepeated file.description entry ∧
      failure = ⟨[.buildingGraph], .graph (.duplicateVertex (Label.quoted entry.1))⟩ := by
  obtain ⟨e, he, rfl⟩ := exists_error_of_validate hextra hshape hfailure
  rw [← distinctKeys_description_iff] at hkeys
  obtain ⟨entry, hentry⟩ := LabeledGraph.exists_firstRepeated hkeys
  cases he.symm.trans (LabeledGraph.ofAdjacency_of_firstRepeated hentry)
  exact ⟨entry, hentry, rfl⟩

theorem danglingEdge_of_validate (hextra : file.PlainExtra) (hshape : ¬ file.Misshapen)
    (hkeys : (file.adjacency.map Prod.fst).Nodup) {failure : Failure}
    (hfailure : file.validate = .error failure) :
    ∃ edge, (LabeledGraph.listedEdges file.description).find?
        (fun edge => !LabeledGraph.declares file.description edge.2) = some edge ∧
      failure = ⟨[.buildingGraph],
        .graph (.danglingEdge (Label.quoted edge.1) (Label.quoted edge.2))⟩ := by
  obtain ⟨e, he, rfl⟩ := exists_error_of_validate hextra hshape hfailure
  rw [← distinctKeys_description_iff] at hkeys
  cases hfind : (LabeledGraph.listedEdges file.description).find?
      (fun edge => !LabeledGraph.declares file.description edge.2) with
  | none =>
      -- With every edge leading somewhere the description would make a graph.
      obtain ⟨g, hg⟩ :=
        (LabeledGraph.exists_ofAdjacency_iff file.description).2 ⟨hkeys, by simpa using hfind⟩
      cases he.symm.trans hg
  | some edge =>
      cases he.symm.trans (LabeledGraph.ofAdjacency_of_dangling hkeys hfind)
      exact ⟨edge, rfl, rfl⟩

/-- A file is accepted iff no vertex has an empty name or is declared twice and every reference has
the label of a vertex; its graph has the vertices in order, each with the labels that it refers to
in order. A file that refers to the same labels, some of them by text where this one has a number,
is validated alike. A file that is not accepted is refused for its shape iff it is misshapen;
otherwise for the first vertex that is declared twice if there is one, otherwise for the first
reference that leads nowhere. -/
theorem validate_outcome (file : GraphFile) (hextra : file.PlainExtra) :
    ((∃ g, file.validate = .ok g) ↔
      (∀ entry ∈ file.adjacency, entry.1 ≠ "") ∧ (file.adjacency.map Prod.fst).Nodup ∧
        ∀ entry ∈ file.adjacency, ∀ ref ∈ entry.2, ref.label ∈ file.adjacency.map Prod.fst) ∧
      (∀ g, file.validate = .ok g → g.labels.toList = file.adjacency.map Prod.fst ∧
        ∀ entry ∈ file.adjacency, g.neighborsOf? entry.1 =
          .ok (some (entry.2.map VertexRef.label))) ∧
      (∀ other : GraphFile, other.PlainExtra → other.description = file.description →
        other.validate = file.validate) ∧
      ∀ failure, file.validate = .error failure →
        ((∃ found, failure = ⟨[], .schema found⟩) ↔ file.Misshapen) ∧
        (¬ file.Misshapen → ¬ (file.adjacency.map Prod.fst).Nodup →
          ∃ entry, LabeledGraph.FirstRepeated file.description entry ∧
            failure = ⟨[.buildingGraph], .graph (.duplicateVertex (Label.quoted entry.1))⟩) ∧
        (¬ file.Misshapen → (file.adjacency.map Prod.fst).Nodup →
          ∃ edge, (LabeledGraph.listedEdges file.description).find?
              (fun edge => !LabeledGraph.declares file.description edge.2) = some edge ∧
            failure = ⟨[.buildingGraph],
              .graph (.danglingEdge (Label.quoted edge.1) (Label.quoted edge.2))⟩) := by
  refine ⟨exists_validate_iff hextra, fun g => described_of_validate,
    fun other hextra' => validate_congr hextra hextra', ?_⟩
  intro failure hfailure
  refine ⟨⟨?_, ?_⟩, fun hshape hkeys => duplicateVertex_of_validate hextra hshape hkeys hfailure,
    fun hshape hkeys => danglingEdge_of_validate hextra hshape hkeys hfailure⟩
  · rintro ⟨found, rfl⟩
    by_contra hshape
    obtain ⟨e, -, heq⟩ := exists_error_of_validate hextra hshape hfailure
    cases heq
  · intro hshape
    obtain ⟨found, hfound⟩ := validate_of_misshapen hextra hshape
    cases hfailure.symm.trans hfound
    exact ⟨found, rfl⟩

/-- A file with a reference by number and one by text; then one in which a vertex is declared again,
which hides that it refers to an empty name at first. -/
theorem validate_outcome_respelled :
    (∃ g, (⟨some "g", [("1", [.number 2, .name "2"]), ("2", [])], [("x", .scalar .null)]⟩ :
      GraphFile).validate = .ok g ∧
      g.labels.toList = ["1", "2"] ∧ g.neighborsOf? "1" = .ok (some ["2", "2"]) ∧
      (⟨none, [("1", [.name "2", .name "2"]), ("2", [])], []⟩ : GraphFile).validate = .ok g) ∧
      ∃ entry, LabeledGraph.FirstRepeated [("a", [""]), ("a", [])] entry ∧
        (⟨none, [("a", [.name ""]), ("a", [])], []⟩ : GraphFile).validate =
          .error ⟨[.buildingGraph], .graph (.duplicateVertex (Label.quoted entry.1))⟩ := by
  have htext : String.ofList (intText 2) = "2" := by decide
  constructor
  · have hextra : (⟨some "g", [("1", [.number 2, .name "2"]), ("2", [])], [("x", .scalar .null)]⟩ :
        GraphFile).PlainExtra :=
      List.forall_mem_singleton.2 ⟨by decide, by decide⟩
    obtain ⟨haccepted, hgraph, hrespelled, -⟩ := validate_outcome _ hextra
    obtain ⟨g, hg⟩ := haccepted.2 (by simp [VertexRef.label, htext])
    obtain ⟨hlabels, hneighbors⟩ := hgraph g hg
    refine ⟨g, hg, hlabels, ?_, ?_⟩
    · rw [hneighbors _ List.mem_cons_self]
      simp [VertexRef.label, htext]
    · rw [← hg]
      exact hrespelled _ (List.forall_mem_nil _) (by simp [description, VertexRef.label, htext])
  · obtain ⟨haccepted, -, -, hrefused⟩ :=
      validate_outcome ⟨none, [("a", [.name ""]), ("a", [])], []⟩ (List.forall_mem_nil _)
    cases hvalidate : (⟨none, [("a", [.name ""]), ("a", [])], []⟩ : GraphFile).validate with
    | ok g => exact absurd (haccepted.1 ⟨g, hvalidate⟩).2.1 (by simp)
    | error failure =>
        obtain ⟨-, hduplicate, -⟩ := hrefused failure hvalidate
        obtain ⟨entry, hentry, rfl⟩ :=
          hduplicate ((adjacencyViolations_eq_nil_iff _).1 rfl) (by simp)
        exact ⟨entry, hentry, rfl⟩

end GraphFile

end StrongComponents
