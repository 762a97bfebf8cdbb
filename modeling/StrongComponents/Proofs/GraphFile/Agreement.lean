import StrongComponents.GraphFile.Validation
import StrongComponents.Proofs.GraphFile.RoundTrip

/-!
# Two ways to validate a graph file

A text is checked as a JSON document and then read as a graph file; a file at hand is written as a
document and that is checked. Both documents show the same neighbour lists, since whatever is read
as a part of a file is the JSON value of that part (`toJson_of_readAdjacency`). They differ where
the text leaves something out or says it with a null: a file has neighbour lists and, if it has a
name, the name is a text. `validations_agree` says that there is no other difference.
-/

set_option autoImplicit false

namespace StrongComponents.GraphFile

/-! ## What is read is the value -/

/-- A name as a JSON value. -/
def nameJson : Option String → Json
  | some s => .ofString s
  | none => .scalar .null

/-- Neighbour lists in the order in which a document has them. -/
def sortedLists (entries : List (String × List VertexRef)) : Json :=
  .object (Json.sortMembers (entries.map fun (v, refs) => (v, .array (refs.map VertexRef.toJson))))

section Exact

theorem finish_eq_ok_iff {α : Type} {value a : α} {fault : Option (Fault SyntaxError)} :
    finish value fault = .ok a ↔ fault = none ∧ value = a := by
  cases fault with
  | none => simp [finish]
  | some fault => simp [finish]

theorem eq_toJson_of_reference? {value : Json} {ref : VertexRef} (h : reference? value = some ref) :
    value = ref.toJson := by
  unfold reference? at h
  split at h
  · split at h
    · cases h
      rfl
    · cases h
  · cases h
    rfl
  · cases h

theorem itemsToJson_of_readReferences {items : List (Tree × Nat)} {refs : List VertexRef}
    (h : readReferences items = .ok refs) :
    Tree.itemsToJson items = .ok (refs.map VertexRef.toJson) := by
  induction items generalizing refs with
  | nil =>
      cases h
      rfl
  | cons item items ih =>
      obtain ⟨tree, after⟩ := item
      rw [readReferences] at h
      obtain ⟨value, hvalue, h⟩ := bind_eq_ok_iff.1 h
      split at h
      · cases h
      · rename_i ref href
        obtain ⟨others, hothers, heq⟩ := bind_eq_ok_iff.1 h
        cases heq
        rw [eq_toJson_of_reference? href] at hvalue
        exact Tree.itemsToJson_cons_eq_ok_iff.2 ⟨_, _, readValue_eq_ok_iff.1 hvalue, ih hothers,
          rfl⟩

theorem toJson_of_readNeighbors {tree : Tree} {refs : List VertexRef}
    (h : readNeighbors tree = .ok refs) :
    tree.toJson = .ok (.array (refs.map VertexRef.toJson)) := by
  cases tree with
  | array start items fault =>
      rw [readNeighbors] at h
      obtain ⟨refs', hrefs, h⟩ := bind_eq_ok_iff.1 h
      obtain ⟨rfl, rfl⟩ := finish_eq_ok_iff.1 h
      exact Tree.toJson_array_of_items (itemsToJson_of_readReferences hrefs)
  | _ => cases h

theorem membersToJson_of_readEntries {members : List (Key × Tree)}
    {entries : List (String × List VertexRef)} (h : readEntries members = .ok entries) :
    Tree.membersToJson members =
      .ok (entries.map fun (v, refs) => (v, .array (refs.map VertexRef.toJson))) := by
  induction members generalizing entries with
  | nil =>
      cases h
      rfl
  | cons member members ih =>
      obtain ⟨key, tree⟩ := member
      rw [readEntries] at h
      obtain ⟨refs, hrefs, h⟩ := bind_eq_ok_iff.1 h
      obtain ⟨others, hothers, heq⟩ := bind_eq_ok_iff.1 h
      cases heq
      exact Tree.membersToJson_cons_eq_ok_iff.2 ⟨_, _, toJson_of_readNeighbors hrefs, ih hothers,
        rfl⟩

/-- Neighbour lists are read from their own JSON value, with every reference of the kind that the
value has. -/
theorem toJson_of_readAdjacency {tree : Tree} {entries : List (String × List VertexRef)}
    (h : readAdjacency tree = .ok entries) : tree.toJson = .ok (sortedLists entries) := by
  cases tree with
  | object start members fault =>
      rw [readAdjacency] at h
      obtain ⟨entries', hentries, h⟩ := bind_eq_ok_iff.1 h
      obtain ⟨rfl, rfl⟩ := finish_eq_ok_iff.1 h
      exact Tree.toJson_object_of_members (membersToJson_of_readEntries hentries)
  | _ => cases h

theorem toJson_of_readName {tree : Tree} {name : Option String} (h : readName tree = .ok name) :
    tree.toJson = .ok (nameJson name) := by
  unfold readName at h
  split at h
  · cases h
    rfl
  · cases h
    rfl
  · cases h

end Exact

/-! ## The fields of a text -/

section Once

variable {α : Type} {values : List (String × Json)} {field : String} {read : Option α}
  {toJson : α → Json}

/-- A field that is given once at most is found as it was read. -/
theorem lookup_of_filter
    (h : values.filter (·.1 = field) = read.toList.map fun a => (field, toJson a)) :
    (Json.sortMembers values).lookup field = read.map toJson := by
  rw [Json.lookup_sortMembers, h]
  cases read with
  | none => rfl
  | some a => rfl

theorem mem_iff_of_filter
    (h : values.filter (·.1 = field) = read.toList.map fun a => (field, toJson a)) (value : Json) :
    (field, value) ∈ values ↔ read.map toJson = some value := by
  have hmem : (field, value) ∈ values ↔ (field, value) ∈ values.filter (·.1 = field) := by
    simp
  rw [hmem, h]
  cases read with
  | none => simp
  | some a => simp [eq_comm]

end Once

namespace Fields

/-- The fields have been read from members with these values: the name and the neighbour lists from
one each, the other fields from members of other names. -/
structure Shows (fields : Fields) (values : List (String × Json)) : Prop where
  name : values.filter (·.1 = nameField) = fields.name.toList.map fun name =>
    (nameField, nameJson name)
  adjacency : values.filter (·.1 = adjacencyField) =
    fields.adjacency.toList.map fun entries => (adjacencyField, sortedLists entries)
  extra : ∀ member ∈ fields.extra, member.1 ≠ nameField ∧ member.1 ≠ adjacencyField

variable {fields fields' : Fields} {values : List (String × Json)}

theorem Shows.add (h : fields.Shows values) {key : Key} {tree : Tree}
    (hadd : fields.add key tree = .ok fields') :
    ∃ value, tree.toJson = .ok value ∧ fields'.Shows (values ++ [(key.name, value)]) := by
  have hdistinct : nameField ≠ adjacencyField := by decide
  unfold Fields.add at hadd
  by_cases hname : key.name = nameField
  · rw [if_pos hname] at hadd
    by_cases htwice : fields.name.isSome = true
    · rw [if_pos htwice] at hadd
      cases hadd
    rw [if_neg htwice] at hadd
    obtain ⟨name, hread, heq⟩ := bind_eq_ok_iff.1 hadd
    cases heq
    -- There was no name before, so this one is all that the values have under that name.
    have hnone : fields.name = none := by simpa using htwice
    refine ⟨_, toJson_of_readName hread, ?_, ?_, h.extra⟩
    · rw [List.filter_append, h.name, hnone]
      simp [hname]
    · rw [List.filter_append, h.adjacency]
      simp [hname, hdistinct]
  rw [if_neg hname] at hadd
  by_cases hadjacency : key.name = adjacencyField
  · rw [if_pos hadjacency] at hadd
    by_cases htwice : fields.adjacency.isSome = true
    · rw [if_pos htwice] at hadd
      cases hadd
    rw [if_neg htwice] at hadd
    obtain ⟨entries, hread, heq⟩ := bind_eq_ok_iff.1 hadd
    cases heq
    have hnone : fields.adjacency = none := by simpa using htwice
    refine ⟨_, toJson_of_readAdjacency hread, ?_, ?_, h.extra⟩
    · rw [List.filter_append, h.name]
      simp [hname]
    · rw [List.filter_append, h.adjacency, hnone]
      simp [hadjacency]
  · -- A field of another name changes neither of the two.
    rw [if_neg hadjacency] at hadd
    obtain ⟨value, hread, heq⟩ := bind_eq_ok_iff.1 hadd
    cases heq
    refine ⟨value, readValue_eq_ok_iff.1 hread, ?_, ?_, ?_⟩
    · rw [List.filter_append, h.name]
      simp [hname]
    · rw [List.filter_append, h.adjacency]
      simp [hadjacency]
    · intro member hmem
      rcases List.mem_append.1 hmem with hmem | hmem
      · exact h.extra member hmem
      · cases List.mem_singleton.1 hmem
        exact ⟨hname, hadjacency⟩

theorem Shows.addAll (h : fields.Shows values) {members : List (Key × Tree)}
    (hadd : fields.addAll members = .ok fields') :
    ∃ values', Tree.membersToJson members = .ok values' ∧ fields'.Shows (values ++ values') := by
  induction members generalizing fields values with
  | nil =>
      cases hadd
      exact ⟨[], rfl, by rwa [List.append_nil]⟩
  | cons member members ih =>
      obtain ⟨key, tree⟩ := member
      rw [Fields.addAll] at hadd
      obtain ⟨next, hnext, hrest⟩ := bind_eq_ok_iff.1 hadd
      obtain ⟨value, hvalue, hshows⟩ := h.add hnext
      obtain ⟨others, hothers, hshows⟩ := ih hshows hrest
      refine ⟨(key.name, value) :: others,
        Tree.membersToJson_cons_eq_ok_iff.2 ⟨_, _, hvalue, hothers, rfl⟩, ?_⟩
      rwa [List.append_assoc] at hshows

end Fields

/-- The text is an object without faults, and these are its fields. -/
theorem exists_fields_of_parse {raw : String} {file : GraphFile} (h : parse raw = .ok file) :
    ∃ start members fields values, (TextTree.ofText raw.toList).root = .object start members none ∧
      Tree.membersToJson members = .ok values ∧ Fields.Shows fields values ∧
        file = ofFields fields ∧
      Json.parse raw = .ok (.object (Json.sortMembers values)) := by
  obtain ⟨htree, htrailing⟩ := parse_eq_ok_iff.1 h
  cases hroot : (TextTree.ofText raw.toList).root with
  | object start members fault =>
      rw [hroot, ofTree] at htree
      obtain ⟨fields, hfields, hfinish⟩ := bind_eq_ok_iff.1 htree
      obtain ⟨rfl, rfl⟩ := finish_eq_ok_iff.1 hfinish
      have hempty : Fields.Shows ⟨none, none, []⟩ [] := ⟨rfl, rfl, by simp⟩
      obtain ⟨values, hvalues, hshows⟩ := hempty.addAll hfields
      refine ⟨start, members, fields, values, rfl, hvalues, hshows, rfl, ?_⟩
      rw [Json.parse_eq_ok_iff, hroot]
      exact ⟨Tree.toJson_object_of_members hvalues, htrailing⟩
  | _ =>
      rw [hroot] at htree
      cases htree

/-! ## The two documents -/

theorem checkDocument_eq_ok_iff {document : Json} :
    checkDocument document = .ok () ↔ violations document = [] := by
  unfold checkDocument
  split
  · rename_i hnone
    simp [hnone]
  · rename_i hsome
    simpa using hsome

/-- What an object needs to have the shape of a graph file. -/
theorem violations_object_eq_nil_iff {members : List (String × Json)} :
    violations (.object members) = [] ↔
      (∃ lists, members.lookup adjacencyField = some lists ∧ adjacencyViolations lists = []) ∧
        ∀ name, members.lookup nameField = some name → nameViolations name = [] := by
  rw [violations]
  cases members.lookup adjacencyField with
  | none => simp
  | some lists =>
      cases members.lookup nameField with
      | none => simp
      | some name => simp

theorem canonical_adjacencyJson (file : GraphFile) :
    file.adjacencyJson.canonical = sortedLists file.adjacency := by
  have hlists : ∀ refs : List VertexRef,
      (Json.array (refs.map VertexRef.toJson)).canonical = .array (refs.map VertexRef.toJson) := by
    intro refs
    rw [Json.canonical, Json.canonicalItems_eq_map, List.map_map]
    congr 1
    exact List.map_congr_left fun ref _ => canonical_toJson ref
  rw [adjacencyJson, Json.canonical, Json.canonicalMembers_eq_map, List.map_map, sortedLists]
  congr 2
  apply List.map_congr_left
  rintro ⟨v, refs⟩ -
  exact congrArg (v, ·) (hlists refs)

/-- The document of a file has its neighbour lists, and its name if it has one. -/
theorem exists_members_document (file : GraphFile)
    (hextra : ∀ member ∈ file.extra, member.1 ≠ nameField ∧ member.1 ≠ adjacencyField) :
    ∃ members, file.document = .object members ∧
      members.lookup adjacencyField = some (sortedLists file.adjacency) ∧
      members.lookup nameField = file.name.map .ofString := by
  have hothers : ∀ field, (∀ member ∈ file.extra, member.1 ≠ field) →
      (Json.canonicalMembers file.extra).filter (·.1 = field) = [] := by
    intro field hfield
    rw [Json.canonicalMembers_eq_map, List.filter_map, List.map_eq_nil_iff, List.filter_eq_nil_iff]
    intro member hmem
    simpa using hfield member hmem
  have hname := hothers nameField fun member hmem => (hextra member hmem).1
  have hadjacency := hothers adjacencyField fun member hmem => (hextra member hmem).2
  have hdistinct : nameField ≠ adjacencyField := by decide
  refine ⟨Json.sortMembers (file.name.toList.map (fun s => (nameField, Json.ofString s)) ++
    (adjacencyField, sortedLists file.adjacency) :: Json.canonicalMembers file.extra), ?_, ?_, ?_⟩
  · rw [document, toJson, Json.canonical, ← canonical_adjacencyJson, Json.canonicalMembers_eq_map,
      Json.canonicalMembers_eq_map, List.map_append, List.map_cons, List.map_map]
    rfl
  · rw [Json.lookup_sortMembers, List.filter_append, List.filter_cons_of_pos (by simp), hadjacency]
    simp
  · rw [Json.lookup_sortMembers, List.filter_append,
      List.filter_cons_of_neg (by simpa using hdistinct.symm), hname]
    cases file.name with
    | none => rfl
    | some s => rfl

/-- The document of a file has the right shape iff its neighbour lists have. -/
theorem checkDocument_document (file : GraphFile)
    (hextra : ∀ member ∈ file.extra, member.1 ≠ nameField ∧ member.1 ≠ adjacencyField) :
    checkDocument file.document = .ok () ↔
      adjacencyViolations (sortedLists file.adjacency) = [] := by
  obtain ⟨members, hmembers, hadjacency, hname⟩ := file.exists_members_document hextra
  rw [checkDocument_eq_ok_iff, hmembers, violations_object_eq_nil_iff, hadjacency, hname]
  constructor
  · rintro ⟨⟨lists, ⟨⟩, hlists⟩, -⟩
    exact hlists
  · intro hlists
    refine ⟨⟨_, rfl, hlists⟩, ?_⟩
    intro name hname
    obtain ⟨s, -, rfl⟩ := Option.map_eq_some_iff.1 hname
    rfl

/-- A document that was read has the right shape iff it has neighbour lists of the right
shape and its name is no null. -/
theorem checkDocument_values {fields : Fields} {values : List (String × Json)}
    (h : fields.Shows values) :
    checkDocument (.object (Json.sortMembers values)) = .ok () ↔
      adjacencyViolations (sortedLists (ofFields fields).adjacency) = [] ∧
        (∃ lists, (adjacencyField, lists) ∈ values) ∧ (nameField, .scalar .null) ∉ values := by
  rw [checkDocument_eq_ok_iff, violations_object_eq_nil_iff, lookup_of_filter h.adjacency,
    lookup_of_filter h.name, mem_iff_of_filter h.name]
  simp only [mem_iff_of_filter h.adjacency, ofFields]
  constructor
  · rintro ⟨⟨lists, hlists, hshape⟩, hname⟩
    obtain ⟨entries, hentries, rfl⟩ := Option.map_eq_some_iff.1 hlists
    rw [hentries]
    refine ⟨hshape, ⟨_, rfl⟩, ?_⟩
    intro hnull
    cases hname _ hnull
  · rintro ⟨hshape, ⟨lists, hlists⟩, hname⟩
    obtain ⟨entries, hentries, rfl⟩ := Option.map_eq_some_iff.1 hlists
    rw [hentries] at hshape
    refine ⟨⟨_, hlists, hshape⟩, ?_⟩
    intro name hsome
    -- A null is the one name that is read and is no text.
    obtain ⟨_ | s, hs, rfl⟩ := Option.map_eq_some_iff.1 hsome
    · exact absurd hsome hname
    · rfl

/-! ## Agreement -/

theorem validate_eq_ok_iff {file : GraphFile} {g : LabeledGraph String} :
    file.validate = .ok g ↔ checkDocument file.document = .ok () ∧ file.build = .ok g := by
  rw [validate, bind_eq_ok_iff]
  simp only [failing_eq_ok_iff]
  constructor
  · rintro ⟨_, hcheck, hbuild⟩
    exact ⟨hcheck, hbuild⟩
  · rintro ⟨hcheck, hbuild⟩
    exact ⟨(), hcheck, hbuild⟩

theorem validateText_eq_ok_iff {raw : String} {g : LabeledGraph String} :
    validateText raw = .ok g ↔
      (∃ document, Json.parse raw = .ok document ∧ checkDocument document = .ok ()) ∧
        ∃ file, parse raw = .ok file ∧ file.build = .ok g := by
  simp only [validateText, bind_eq_ok_iff, during_eq_ok_iff, failing_eq_ok_iff]
  constructor
  · rintro ⟨document, hdocument, _, hcheck, hfile⟩
    exact ⟨⟨document, hdocument, hcheck⟩, hfile⟩
  · rintro ⟨⟨document, hdocument, hcheck⟩, hfile⟩
    exact ⟨document, hdocument, (), hcheck, hfile⟩

/-- A text that is read as a file is accepted iff the file is, its object has neighbour
lists and its name is no null. -/
theorem validateText_iff_of_parse {raw : String} {file : GraphFile} (hparse : parse raw = .ok file)
    (g : LabeledGraph String) :
    validateText raw = .ok g ↔
      file.validate = .ok g ∧
        (∃ lists, (TextTree.ofText raw.toList).HasMember adjacencyField lists) ∧
        ¬ (TextTree.ofText raw.toList).HasMember nameField (.scalar .null) := by
  obtain ⟨start, members, fields, values, hroot, hvalues, hshows, rfl, hdocument⟩ :=
    exists_fields_of_parse hparse
  have hextra : ∀ member ∈ (ofFields fields).extra, member.1 ≠ nameField ∧
      member.1 ≠ adjacencyField :=
    fun member hmem => hshows.extra member (Json.mem_of_mem_sortMembers hmem)
  rw [validateText_eq_ok_iff, validate_eq_ok_iff, checkDocument_document _ hextra]
  simp only [TextTree.hasMember_iff hroot hvalues, hdocument, hparse, Except.ok.injEq,
    exists_eq_left', checkDocument_values hshows]
  exact and_right_comm

/-- The two ways to validate a graph file agree up to what a file does not keep. A text that is read
as a file is accepted, as a graph, iff the file is accepted as that graph and the text has neighbour
lists and no null for a name, whatever other fields it has and whichever vertices it declares twice.
And an accepted text is read as a file that is accepted, as the same graph. -/
theorem validations_agree (raw : String) :
    (∀ file, parse raw = .ok file → ∀ g, validateText raw = .ok g ↔
      file.validate = .ok g ∧
        (∃ lists, (TextTree.ofText raw.toList).HasMember adjacencyField lists) ∧
        ¬ (TextTree.ofText raw.toList).HasMember nameField (.scalar .null)) ∧
      ∀ g, validateText raw = .ok g → ∃ file, parse raw = .ok file ∧ file.validate = .ok g := by
  refine ⟨fun file => validateText_iff_of_parse, ?_⟩
  intro g hvalid
  obtain ⟨-, file, hparse, -⟩ := validateText_eq_ok_iff.1 hvalid
  exact ⟨file, hparse, ((validateText_iff_of_parse hparse g).1 hvalid).1⟩

/-- A vertex that leads to itself, by its number, in a file with a field of its own. -/
theorem validations_agree_loop :
    ∃ (file : GraphFile) (g : LabeledGraph String),
      file = ⟨none, [("1", [.number 1])], [("x", .scalar .null)]⟩ ∧
      parse file.text = .ok file ∧ validateText file.text = .ok g ∧ file.validate = .ok g := by
  obtain ⟨file, hfile⟩ : ∃ file : GraphFile, file =
    ⟨none, [("1", [.number 1])], [("x", .scalar .null)]⟩ := ⟨_, rfl⟩
  have hwritable : file.Writable := by
    subst hfile
    refine ⟨by simp [isInt64], rfl, by simp [nameField, adjacencyField], by simp [Json.canonical],
      ?_⟩
    exact List.forall_mem_singleton.2 (.scalar (by simp))
  have hlists : adjacencyViolations (sortedLists file.adjacency) = [] := by
    subst hfile
    rfl
  have hbuild : file.build.isOk = true := by
    subst hfile
    cbv
  obtain ⟨tree, htext, htree⟩ := exists_ofText hwritable
  have hparse : parse file.text = .ok file := by
    rw [parse_eq_ok_iff, htext]
    exact ⟨htree, rfl⟩
  have hdocument := (readable_toJson hwritable).parse_text (by decide)
  have hcheck := (checkDocument_document file hwritable.names).2 hlists
  cases hg : file.build with
  | error f =>
      rw [hg] at hbuild
      cases hbuild
  | ok g =>
      have hvalid := validateText_eq_ok_iff.2 ⟨⟨_, hdocument, hcheck⟩, file, hparse, hg⟩
      exact ⟨file, g, hfile, hparse, hvalid, (((validations_agree _).1 file hparse g).1 hvalid).1⟩

end StrongComponents.GraphFile
