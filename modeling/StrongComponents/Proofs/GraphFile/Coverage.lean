import StrongComponents.Proofs.CommandLine.Bounds
import StrongComponents.Proofs.GraphFile.Agreement
import Mathlib.Data.List.Nodup

/-!
# What the shape of a document leaves to the reader

A text is checked as a document before it is read as a graph file. The two ask for almost the same.
On a document of the right shape in which no name is repeated, the reader can only stumble over a
number in a neighbour list: the shape lets every number without a fraction pass, the reader wants an
integer of 64 bits. `GraphFile.Hinges` says of a reader that nothing else decides whether it
succeeds, and that is proved from the neighbours of one vertex up to the whole text (`ends_parse`).
-/

set_option autoImplicit false

namespace StrongComponents

/-- No object of the tree has two members of one name. -/
inductive Tree.Unrepeated : Tree → Prop where
  | scalar (value : Scalar) (stop : Nat) : Unrepeated (.scalar value stop)
  | array {start : Nat} {items : List (Tree × Nat)} {fault : Option (Fault SyntaxError)}
      (h : ∀ item ∈ items, Unrepeated item.1) : Unrepeated (.array start items fault)
  | object {start : Nat} {members : List (Key × Tree)} {fault : Option (Fault SyntaxError)}
      (hnames : (members.map fun member => member.1.name).Nodup) (h : ∀ member ∈ members,
      Unrepeated member.2) : Unrepeated (.object start members fault)
  | broken (fault : Fault SyntaxError) : Unrepeated (.broken fault)

/-- The number is one that a reference can be: an integer of 64 bits with sign. -/
def Number.Refers (n : Number) : Prop := ∃ i, n = .int i ∧ GraphFile.isInt64 i = true

namespace GraphFile

/-- The value stands in one of these neighbour lists. -/
def Listed (lists value : Json) : Prop :=
  ∃ entries v items, lists = .object entries ∧ (v, .array items) ∈ entries ∧ value ∈ items

/-- The value stands in one of the neighbour lists of the document. -/
def HasNeighbor (document value : Json) : Prop :=
  ∃ members lists, document = .object members ∧ members.lookup adjacencyField = some lists ∧
    Listed lists value

/-! ## Readers that hinge on one thing -/

/-- The reader succeeds iff `fits` holds, and when it fails then at something that is no
reference. -/
def Hinges {α : Type} (fits : Prop) (result : Except Failed α) : Prop :=
  Ends (fun _ => fits) (fun fault => ¬ fits ∧ fault.cause = .noReference) result

namespace Hinges

variable {α β : Type} {fits fits' : Prop} {result : Except Failed α}

theorem of_ok {a : α} (h : fits) : Hinges fits (.ok a : Except Failed α) := Ends.of_ok h

theorem congr (h : Hinges fits result) (hiff : fits ↔ fits') : Hinges fits' result := by
  rwa [← propext hiff]

/-- Two readers in a row hinge on what both hinge on. -/
theorem bind {next : α → Except Failed β} (h : Hinges fits result)
    (hnext : ∀ a, result = .ok a → Hinges fits' (next a)) :
    Hinges (fits ∧ fits') (result >>= next) := by
  cases result with
  | error fault =>
      obtain ⟨hfits, hcause⟩ := h.error fault rfl
      exact Ends.of_error ⟨fun hboth => hfits hboth.1, hcause⟩
  | ok a =>
      have hfits : fits := h.ok a rfl
      exact (hnext a rfl).congr (by simp [hfits])

/-- What is done with a result without failing makes no difference. -/
theorem bind_ok {next : α → Except Failed β} (h : Hinges fits result)
    (hnext : ∀ a, ∃ b, next a = .ok b) :
    Hinges fits (result >>= next) := by
  have hboth : Hinges (fits ∧ True) (result >>= next) := by
    apply h.bind
    intro a _
    obtain ⟨b, hb⟩ := hnext a
    rw [hb]
    exact of_ok trivial
  exact hboth.congr (by simp)

end Hinges

/-! ## Neighbour lists -/

/-- A value that the shape lets pass is a reference unless it is a number of another kind. -/
theorem isSome_reference?_iff {value : Json} (hshape : isReference value = true) :
    (reference? value).isSome = true ↔ ∀ n, value = .scalar (.number n) → n.Refers := by
  unfold reference?
  split
  · rename_i i
    -- An integer is a reference iff it has 64 bits.
    by_cases hint : isInt64 i = true
    · simp [hint, Number.Refers]
    · simp [hint, Number.Refers]
  · simp
  · rename_i hint hstring
    simp only [Option.isSome_none, Bool.false_eq_true, false_iff]
    intro hrefers
    unfold isReference at hshape
    split at hshape
    · rename_i n
      obtain ⟨i, rfl, -⟩ := hrefers n rfl
      exact hint i rfl
    · rename_i s
      exact hstring s rfl
    · cases hshape

theorem readReferences_cons {tree : Tree} {value : Json} (hvalue : tree.toJson = .ok value)
    (after : Nat) (items : List (Tree × Nat)) :
    (reference? value = none →
      readReferences ((tree, after) :: items) = .error ⟨.noReference, after⟩) ∧
      ∀ ref, reference? value = some ref → readReferences ((tree, after) :: items) =
        readReferences items >>= fun refs => .ok (ref :: refs) := by
  rw [readReferences, readValue_eq_ok_iff.2 hvalue]
  constructor
  · intro hnone
    simp only [bind, Except.bind, hnone]
    rfl
  · intro ref hsome
    simp only [bind, Except.bind, hsome]
    rfl

theorem hinges_readReferences {items : List (Tree × Nat)} {values : List Json}
    (hvalues : Tree.itemsToJson items = .ok values)
    (hshape : ∀ value ∈ values, isReference value = true) :
    Hinges (∀ n, .scalar (.number n) ∈ values → n.Refers) (readReferences items) := by
  induction items generalizing values with
  | nil =>
      cases hvalues
      exact .of_ok (by simp)
  | cons item items ih =>
      obtain ⟨tree, after⟩ := item
      obtain ⟨value, others, hvalue, hothers, rfl⟩ := Tree.itemsToJson_cons_eq_ok_iff.1 hvalues
      obtain ⟨hmissed, hfound⟩ := readReferences_cons hvalue after items
      have href := isSome_reference?_iff (hshape value List.mem_cons_self)
      have hrest := ih hothers fun value' hmem => hshape value' (List.mem_cons_of_mem _ hmem)
      cases hvalue : reference? value with
      | none =>
          -- The value is a number that is no reference, and what comes after it is not looked at.
          rw [hvalue] at href
          rw [hmissed hvalue]
          refine Ends.of_error ⟨fun hfits => ?_, rfl⟩
          have hsome := href.2 fun n hn => hfits n (hn ▸ List.mem_cons_self)
          cases hsome
      | some ref =>
          rw [hvalue] at href
          have hfirst := href.1 rfl
          rw [hfound ref hvalue]
          refine (hrest.bind_ok fun refs => ⟨ref :: refs, rfl⟩).congr ?_
          simp only [List.mem_cons, or_imp, forall_and]
          exact ⟨fun hothers => ⟨fun n hn => hfirst n hn.symm, hothers⟩, fun hboth => hboth.2⟩

theorem neighborViolations_eq_nil_iff {list : Json} :
    neighborViolations list = [] ↔ ∃ items, list = .array items ∧
      ∀ value ∈ items, isReference value = true := by
  unfold neighborViolations
  split
  · rename_i items
    simp
  · rename_i harray
    simp only [reduceCtorEq, false_iff]
    rintro ⟨items, rfl, -⟩
    exact harray items rfl

theorem hinges_readNeighbors {tree : Tree} {list : Json} (hlist : tree.toJson = .ok list)
    (hshape : neighborViolations list = []) :
    ∃ items, list = .array items ∧
      Hinges (∀ n, .scalar (.number n) ∈ items → n.Refers) (readNeighbors tree) := by
  obtain ⟨values, rfl, hvalues⟩ := neighborViolations_eq_nil_iff.1 hshape
  obtain ⟨start, items, rfl, hitems⟩ := Tree.exists_of_toJson_array hlist
  refine ⟨values, rfl, ?_⟩
  rw [readNeighbors]
  exact (hinges_readReferences hitems hvalues).bind_ok fun refs => ⟨refs, rfl⟩

theorem hinges_readEntries {members : List (Key × Tree)} {values : List (String × Json)}
    (hvalues : Tree.membersToJson members = .ok values)
    (hshape : ∀ entry ∈ values, neighborViolations entry.2 = []) :
    Hinges (∀ v items, (v, .array items) ∈ values → ∀ n, .scalar (.number n) ∈ items → n.Refers)
      (readEntries members) := by
  induction members generalizing values with
  | nil =>
      cases hvalues
      exact .of_ok (by simp)
  | cons member members ih =>
      obtain ⟨key, tree⟩ := member
      obtain ⟨list, others, hlist, hothers, rfl⟩ := Tree.membersToJson_cons_eq_ok_iff.1 hvalues
      obtain ⟨items, rfl, hfirst⟩ := hinges_readNeighbors hlist (hshape _ List.mem_cons_self)
      have hrest := ih hothers fun entry hmem => hshape entry (List.mem_cons_of_mem _ hmem)
      rw [readEntries]
      refine (hfirst.bind fun refs _ => hrest.bind_ok fun entries => ⟨(key.name, refs) :: entries,
        rfl⟩).congr ?_
      simp only [List.mem_cons, Prod.mk.injEq, Json.array.injEq]
      constructor
      · rintro ⟨hfirst, hrest⟩ v items' (⟨-, rfl⟩ | hmem)
        · exact hfirst
        · exact hrest v items' hmem
      · intro hall
        exact ⟨hall key.name items (.inl ⟨rfl, rfl⟩),
          fun v items' hmem => hall v items' (.inr hmem)⟩

theorem exists_object_of_adjacencyViolations {lists : Json} (h : adjacencyViolations lists = []) :
    ∃ entries, lists = .object entries ∧ ∀ entry ∈ Json.sortMembers entries,
      neighborViolations entry.2 = [] := by
  unfold adjacencyViolations at h
  split at h
  · rename_i entries
    refine ⟨entries, rfl, ?_⟩
    exact List.flatMap_eq_nil_iff.1 (List.append_eq_nil_iff.1 h).1
  · cases h

/-- The neighbour lists are all looked at by the shape, as none is hidden behind
another of the same vertex. -/
theorem hinges_readAdjacency {tree : Tree} {lists : Json} (hlists : tree.toJson = .ok lists)
    (hunique : tree.Unrepeated) (hshape : adjacencyViolations lists = []) :
    Hinges (∀ n, Listed lists (.scalar (.number n)) → n.Refers) (readAdjacency tree) := by
  obtain ⟨entries, rfl, hentries⟩ := exists_object_of_adjacencyViolations hshape
  obtain ⟨start, members, found, rfl, hmembers, rfl⟩ := Tree.exists_of_toJson_object hlists
  cases hunique with
  | object hnames _ =>
      rw [← Tree.map_fst_of_membersToJson hmembers] at hnames
      have hmem : ∀ entry, entry ∈ Json.sortMembers found ↔ entry ∈ found :=
        fun entry => ⟨Json.mem_of_mem_sortMembers, Json.mem_sortMembers_of_nodup hnames⟩
      have hfound : ∀ entry ∈ found, neighborViolations entry.2 = [] := by
        intro entry hentry
        apply hentries
        exact Json.mem_sortMembers_of_nodup (Json.nodup_sortMembers found) ((hmem entry).2 hentry)
      rw [readAdjacency]
      refine ((hinges_readEntries hmembers hfound).bind_ok fun entries => ⟨entries, rfl⟩).congr ?_
      constructor
      · rintro hfits n ⟨_, v, items, ⟨⟩, hentry, hn⟩
        exact hfits v items ((hmem _).1 hentry) n hn
      · intro hfits v items hentry n hn
        exact hfits n ⟨_, v, items, rfl, (hmem _).2 hentry, hn⟩

/-! ## Fields -/

theorem exists_string_of_nameViolations {name : Json} (h : nameViolations name = []) :
    ∃ s, name = .ofString s := by
  unfold nameViolations at h
  split at h
  · exact ⟨_, rfl⟩
  · cases h

namespace Fields

variable {fields fields' : Fields} {key : Key} {tree : Tree} {value : Json}

/-- Adding a field of another name changes neither the name nor the neighbour lists. -/
theorem add_eq_ok (h : fields.add key tree = .ok fields') :
    (key.name ≠ nameField → fields'.name = fields.name) ∧
      (key.name ≠ adjacencyField → fields'.adjacency = fields.adjacency) := by
  unfold add at h
  split at h
  · rename_i hname
    split at h
    · cases h
    · obtain ⟨name, -, hadded⟩ := bind_eq_ok_iff.1 h
      cases hadded
      exact ⟨fun hne => absurd hname hne, fun _ => rfl⟩
  · split at h
    · rename_i hadjacency
      split at h
      · cases h
      · obtain ⟨entries, -, hadded⟩ := bind_eq_ok_iff.1 h
        cases hadded
        exact ⟨fun _ => rfl, fun hne => absurd hadjacency hne⟩
    · obtain ⟨other, -, hadded⟩ := bind_eq_ok_iff.1 h
      cases hadded
      exact ⟨fun _ => rfl, fun _ => rfl⟩

/-- A field of the right shape that was not there before is added unless it has neighbour
lists that cannot be read. -/
theorem hinges_add (hvalue : tree.toJson = .ok value) (hunique : tree.Unrepeated)
    (hname : key.name = nameField → fields.name = none ∧ nameViolations value = [])
    (hlists : key.name = adjacencyField →
      fields.adjacency = none ∧ adjacencyViolations value = []) :
    Hinges (key.name = adjacencyField → ∀ n, Listed value (.scalar (.number n)) → n.Refers)
      (fields.add key tree) := by
  have hdistinct : nameField ≠ adjacencyField := by decide
  unfold add
  split
  · rename_i hkey
    obtain ⟨hnone, hshape⟩ := hname hkey
    obtain ⟨s, rfl⟩ := exists_string_of_nameViolations hshape
    obtain ⟨stop, rfl⟩ := Tree.exists_of_toJson_scalar hvalue
    rw [hnone]
    refine .of_ok fun hkey' => ?_
    exact absurd (hkey.symm.trans hkey') hdistinct
  · split
    · rename_i hkey
      obtain ⟨hnone, hshape⟩ := hlists hkey
      rw [hnone]
      have hread := hinges_readAdjacency hvalue hunique hshape
      exact (hread.bind_ok fun entries => ⟨_, rfl⟩).congr (by simp [hkey])
    · rename_i hkey
      rw [readValue_eq_ok_iff.2 hvalue]
      exact .of_ok fun hkey' => absurd hkey' hkey

/-- Fields of the right shape and of different names are added unless neighbour lists
among them cannot be read. -/
theorem hinges_addAll {members : List (Key × Tree)} {values : List (String × Json)}
    (hvalues : Tree.membersToJson members = .ok values)
    (hnames : (members.map fun member => member.1.name).Nodup)
    (hunique : ∀ member ∈ members, member.2.Unrepeated)
    (hname : ∀ value, (nameField, value) ∈ values → fields.name = none ∧ nameViolations value = [])
    (hlists : ∀ lists, (adjacencyField, lists) ∈ values → fields.adjacency = none ∧
      adjacencyViolations lists = []) :
    Hinges (∀ lists, (adjacencyField, lists) ∈ values → ∀ n, Listed lists (.scalar (.number n)) →
      n.Refers)
      (fields.addAll members) := by
  induction members generalizing fields values with
  | nil =>
      cases hvalues
      exact .of_ok (by simp)
  | cons member members ih =>
      obtain ⟨key, tree⟩ := member
      obtain ⟨value, others, hvalue, hothers, rfl⟩ := Tree.membersToJson_cons_eq_ok_iff.1 hvalues
      rw [List.map_cons, ← Tree.map_fst_of_membersToJson hothers, List.nodup_cons] at hnames
      have hlater : ∀ {name : String} {other : Json}, (name, other) ∈ others → key.name ≠ name := by
        rintro name other hmem rfl
        exact hnames.1 (List.mem_map.2 ⟨_, hmem, rfl⟩)
      have hfirst : Hinges (key.name = adjacencyField → ∀ n, Listed value (.scalar (.number n)) →
          n.Refers) (fields.add key tree) := by
        apply hinges_add hvalue (hunique _ List.mem_cons_self)
        · intro hkey
          exact hname value (hkey ▸ List.mem_cons_self)
        · intro hkey
          exact hlists value (hkey ▸ List.mem_cons_self)
      rw [addAll]
      refine (hfirst.bind fun next hnext => ih hothers ?_ ?_ ?_ ?_).congr ?_
      · rw [← Tree.map_fst_of_membersToJson hothers]
        exact hnames.2
      · exact fun member hmem => hunique member (List.mem_cons_of_mem _ hmem)
      · -- The member just added has another name than those after it, so what they need is still
        -- free.
        intro other hmem
        obtain ⟨hnone, hshape⟩ := hname other (List.mem_cons_of_mem _ hmem)
        exact ⟨((add_eq_ok hnext).1 (hlater hmem)).trans hnone, hshape⟩
      · intro other hmem
        obtain ⟨hnone, hshape⟩ := hlists other (List.mem_cons_of_mem _ hmem)
        exact ⟨((add_eq_ok hnext).2 (hlater hmem)).trans hnone, hshape⟩
      · simp only [List.mem_cons, Prod.mk.injEq]
        constructor
        · rintro ⟨hkey, hrest⟩ lists (⟨heq, rfl⟩ | hmem)
          · exact hkey heq.symm
          · exact hrest lists hmem
        · intro hall
          exact ⟨fun hkey => hall value (.inl ⟨hkey.symm, rfl⟩),
            fun lists hmem => hall lists (.inr hmem)⟩

end Fields

/-! ## Texts -/

/-- Every number among the neighbours of the document is one that a reference can be. -/
def NumbersRefer (document : Json) :
    Prop := ∀ n, HasNeighbor document (.scalar (.number n)) → n.Refers

theorem exists_object_of_violations {document : Json} (h : violations document = []) :
    ∃ members, document = .object members := by
  unfold violations at h
  split at h
  · exact ⟨_, rfl⟩
  · cases h

/-- A tree of the right shape in which no name is repeated is read unless a number stands in the
way. -/
theorem hinges_ofTree {tree : Tree} {document : Json} (hdocument : tree.toJson = .ok document)
    (hunique : tree.Unrepeated) (hshape : violations document = []) :
    Hinges (NumbersRefer document) (ofTree tree) := by
  obtain ⟨values, rfl⟩ := exists_object_of_violations hshape
  obtain ⟨start, members, found, rfl, hmembers, rfl⟩ := Tree.exists_of_toJson_object hdocument
  obtain ⟨⟨lists, hlookup, hlists⟩, hname⟩ := violations_object_eq_nil_iff.1 hshape
  cases hunique with
  | object hnames hparts =>
      have hnodup := hnames
      rw [← Tree.map_fst_of_membersToJson hmembers] at hnodup
      have hfind : ∀ {name : String} {value : Json}, (name, value) ∈ found →
        (Json.sortMembers found).lookup name = some value := Json.lookup_sortMembers_of_nodup hnodup
      have honly : ∀ other, (adjacencyField, other) ∈ found → other = lists := by
        intro other hmem
        have hother := hfind hmem
        rw [hlookup] at hother
        exact (Option.some.inj hother).symm
      have hfields : Hinges (∀ lists, (adjacencyField, lists) ∈ found →
          ∀ n, Listed lists (.scalar (.number n)) → n.Refers)
          (Fields.addAll ⟨none, none, []⟩ members) := by
        apply Fields.hinges_addAll hmembers hnames hparts
        · exact fun value hmem => ⟨rfl, hname value (hfind hmem)⟩
        · exact fun other hmem => ⟨rfl, honly other hmem ▸ hlists⟩
      rw [ofTree]
      refine (hfields.bind_ok fun fields => ⟨ofFields fields, rfl⟩).congr ?_
      constructor
      · rintro hfits n ⟨_, other, ⟨⟩, hother, hlisted⟩
        exact hfits other (Json.mem_of_lookup_sortMembers hother) n hlisted
      · intro hfits other hmem n hlisted
        exact hfits n ⟨_, other, rfl, hfind hmem, hlisted⟩

/-- A text of the right shape in which no name is repeated is read unless a number stands in the
way. -/
theorem ends_parse {raw : String} (hunique : (TextTree.ofText raw.toList).root.Unrepeated)
    {document : Json} (hdocument : Json.parse raw = .ok document)
    (hcheck : checkDocument document = .ok ()) :
    Ends (fun _ => NumbersRefer document) (fun e => ¬ NumbersRefer document ∧
      e.cause = .noReference) (parse raw) := by
  obtain ⟨htree, htrailing⟩ := Json.parse_eq_ok_iff.1 hdocument
  have hread := hinges_ofTree htree hunique (checkDocument_eq_ok_iff.1 hcheck)
  rw [parse, TextTree.interpret_of_trailing htrailing]
  exact Ends.mapError hread fun fault hfault => hfault

/-- The ways in which a text without repeated names is refused. -/
inductive Refused (raw : String) : Failure → Prop where
  /-- It is no JSON. -/
  | malformed {e : ReadError SyntaxError} (h : Json.parse raw = .error e) :
      Refused raw ⟨[.parsingDocument], .document e⟩
  /-- It has not the shape of a graph file. -/
  | misshapen {document : Json} {found : List Violation} (hdocument : Json.parse raw = .ok document)
      (h : checkDocument document = .error found) : Refused raw ⟨[], .schema found⟩
  /-- It has the shape, and one of the neighbours is a number that no reference can be. -/
  | unread {document : Json} {n : Number} (hdocument : Json.parse raw = .ok document)
      (hcheck : checkDocument document = .ok ()) (hn : HasNeighbor document (.scalar (.number n)))
      (h : ¬ n.Refers) (location : Location) : Refused raw ⟨[], .graphFile ⟨.noReference, location⟩⟩
  /-- It is read, and a vertex is declared again. -/
  | duplicateVertex {file : GraphFile} {entry : String × List VertexRef}
      (hfile : parse raw = .ok file) (h : entry ∈ file.adjacency) :
      Refused raw ⟨[.buildingGraph], .graph (.duplicateVertex (Label.quoted entry.1))⟩
  /-- It is read, and a neighbour is declared nowhere. -/
  | danglingEdge {file : GraphFile} {entry : String × List VertexRef} {ref : VertexRef}
      (hfile : parse raw = .ok file) (hentry : entry ∈ file.adjacency) (href : ref ∈ entry.2)
      (h : ∀ other ∈ file.adjacency, other.1 ≠ ref.label) :
      Refused raw ⟨[.buildingGraph],
        .graph (.danglingEdge (Label.quoted entry.1) (Label.quoted ref.label))⟩

theorem refused_of_build {raw : String} {file : GraphFile} (hfile : parse raw = .ok file)
    {failure : Failure} (h : file.build = .error failure) : Refused raw failure := by
  have hends : Ends (fun g : LabeledGraph String => g.Built) (LabeledGraph.Malformed _)
      file.toLabeledGraph :=
    LabeledGraph.ends_ofAdjacency _
  rw [build] at h
  cases hgraph : file.toLabeledGraph with
  | ok g =>
      rw [hgraph] at h
      cases h
  | error e =>
      rw [hgraph] at h
      cases h
      -- The description is that of the file, with the labels of the references.
      rcases hends.error e hgraph with ⟨_, hmem, rfl⟩ | ⟨_, hmem, _, htarget, hmissing, rfl⟩
      · obtain ⟨entry, hentry, rfl⟩ := List.mem_map.1 hmem
        exact .duplicateVertex hfile hentry
      · obtain ⟨entry, hentry, rfl⟩ := List.mem_map.1 hmem
        obtain ⟨ref, href, rfl⟩ := List.mem_map.1 htarget
        refine .danglingEdge hfile hentry href fun other hother => ?_
        exact beq_eq_false_iff_ne.1 (hmissing _ (List.mem_map_of_mem hother))

theorem refused_of_validateText {raw : String}
    (hunique : (TextTree.ofText raw.toList).root.Unrepeated) {failure : Failure}
    (h : validateText raw = .error failure) : Refused raw failure := by
  rw [validateText] at h
  cases hdocument : Json.parse raw with
  | error e =>
      rw [hdocument] at h
      cases h
      exact .malformed hdocument
  | ok document =>
      rw [hdocument] at h
      simp only [during, failing, Except.mapError, bind, Except.bind] at h
      cases hcheck : checkDocument document with
      | error found =>
          rw [hcheck] at h
          cases h
          exact .misshapen hdocument hcheck
      | ok u =>
          rw [hcheck] at h
          cases hparse : parse raw with
          | error e =>
              -- The shape is right, so a number is to blame, and some neighbour is such a number.
              obtain ⟨hrefer, hcause⟩ := (ends_parse hunique hdocument hcheck).error e hparse
              obtain ⟨n, hn⟩ := not_forall.1 hrefer
              obtain ⟨hneighbor, hrefers⟩ := Classical.not_imp.1 hn
              obtain ⟨cause, location⟩ := e
              cases hcause
              rw [hparse] at h
              cases h
              exact .unread hdocument hcheck hneighbor hrefers location
          | ok file =>
              rw [hparse] at h
              exact refused_of_build hparse h

/-! ## One vertex with one neighbour -/

def loneEdge (v : String) (neighbor : Scalar) : Json :=
  .object [(adjacencyField, .object [(v, .array [.scalar neighbor])])]

theorem hasNeighbor_loneEdge {v : String} {neighbor : Scalar} {value : Json} :
    HasNeighbor (loneEdge v neighbor) value ↔ value = .scalar neighbor := by
  constructor
  · rintro ⟨members, lists, ⟨⟩, hlists, entries, v', items, rfl, hentry, hvalue⟩
    cases hlists
    cases List.mem_singleton.1 hentry
    exact List.mem_singleton.1 hvalue
  · rintro rfl
    exact ⟨_, _, rfl, rfl, _, v, _, rfl, List.mem_singleton_self _, List.mem_singleton_self _⟩

theorem loneEdge_text (v : String) {neighbor : Scalar}
    (h : ∀ n, neighbor = .number n → n.Readable) :
    (TextTree.ofText (loneEdge v neighbor).text.toList).root.Unrepeated ∧
      Json.parse (loneEdge v neighbor).text = .ok (loneEdge v neighbor) := by
  have hreadable : Json.Readable 3 (loneEdge v neighbor) := by
    apply Json.Readable.object
    refine List.forall_mem_singleton.2 (.object (List.forall_mem_singleton.2 (.array ?_)))
    exact List.forall_mem_singleton.2 (.scalar h)
  refine ⟨?_, hreadable.parse_text (by decide)⟩
  obtain ⟨tree, hholds, htext⟩ := hreadable.ofText (by decide) Json.Layout.blank_compact 0
  rw [Json.text, Json.compact, String.toList_ofList, htext]
  obtain ⟨start, _, rfl, key, _, _, rfl, -, ⟨start', _, rfl, key', _, _, rfl, -, hitems, rfl⟩,
    rfl⟩ := hholds
  obtain ⟨start'', _, rfl, _, after, _, rfl, ⟨stop, rfl⟩, rfl⟩ := hitems
  refine .object (List.nodup_singleton _) (List.forall_mem_singleton.2 ?_)
  refine .object (List.nodup_singleton _) (List.forall_mem_singleton.2 ?_)
  exact .array (List.forall_mem_singleton.2 (.scalar _ _))

/-! ## Checked texts -/

/-- A text in which no object repeats a name, if it has the shape of a graph file, is read as one
iff every number among its neighbours is an integer of 64 bits; if one is not, it is refused by the
reader for that. So the shape covers what the reader wants up to such numbers: whatever else is
wrong with a text is found before it is read, or when the graph is built. -/
theorem checked_text_read_iff (raw : String)
    (hunique : (TextTree.ofText raw.toList).root.Unrepeated) :
    (∀ document, Json.parse raw = .ok document → checkDocument document = .ok () →
      ((∃ file, parse raw = .ok file) ↔ NumbersRefer document) ∧
        ∀ e, parse raw = .error e → e.cause = .noReference) ∧
      ∀ failure, validateText raw = .error failure → Refused raw failure := by
  refine ⟨?_, fun failure => refused_of_validateText hunique⟩
  intro document hdocument hcheck
  have hends := ends_parse hunique hdocument hcheck
  refine ⟨⟨fun ⟨file, hfile⟩ => hends.ok file hfile, fun hrefer => ?_⟩,
    fun e he => (hends.error e he).2⟩
  cases hparse : parse raw with
  | ok file => exact ⟨file, rfl⟩
  | error e => exact absurd hrefer (hends.error e hparse).1

/-- A vertex named by a text, with itself as a neighbour named by a number. -/
theorem checked_text_read_iff_loop :
    ∃ raw : String, raw = "\x7b\"adjacency\":\x7b\"7\":[7]\x7d\x7d" ∧
      (TextTree.ofText raw.toList).root.Unrepeated ∧ ∃ file, parse raw = .ok file := by
  have hnumber : ∀ n, Scalar.number (.int 7) = .number n → n.Readable := by
    rintro n ⟨⟩
    exact ⟨by decide, by decide⟩
  obtain ⟨hunique, hdocument⟩ := loneEdge_text "7" hnumber
  have hrefer : NumbersRefer (loneEdge "7" (.number (.int 7))) := by
    intro n hn
    cases hasNeighbor_loneEdge.1 hn
    exact ⟨7, rfl, by decide⟩
  obtain ⟨hread, -⟩ := checked_text_read_iff _ hunique
  exact ⟨_, by decide +kernel, hunique, (hread _ hdocument rfl).1.2 hrefer⟩

/-- The least positive integer of more than 64 bits with sign has the right shape and
is refused by the reader. -/
theorem validateText_beyond_int64 :
    ∃ (raw : String) (document : Json) (location : Location),
      raw = "\x7b\"adjacency\":\x7b\"9223372036854775808\":[9223372036854775808]\x7d\x7d" ∧
      (TextTree.ofText raw.toList).root.Unrepeated ∧ Json.parse raw = .ok document ∧
        checkDocument document = .ok () ∧
      parse raw = .error ⟨.noReference, location⟩ ∧
      validateText raw = .error ⟨[], .graphFile ⟨.noReference, location⟩⟩ := by
  have hnumber : ∀ n, Scalar.number (.int 0x8000000000000000) = .number n → n.Readable := by
    rintro n ⟨⟩
    exact ⟨by decide, by decide⟩
  obtain ⟨hunique, hdocument⟩ := loneEdge_text "9223372036854775808" hnumber
  have hcheck : checkDocument (loneEdge "9223372036854775808" (.number (.int 0x8000000000000000))) =
    .ok () := rfl
  have hrefer : ¬ NumbersRefer
      (loneEdge "9223372036854775808" (.number (.int 0x8000000000000000))) := by
    intro hall
    obtain ⟨i, hi, hint⟩ := hall _ (hasNeighbor_loneEdge.2 rfl)
    cases hi
    exact absurd hint (by decide)
  have hends := ends_parse hunique hdocument hcheck
  cases hparse : parse (loneEdge "9223372036854775808" (.number (.int 0x8000000000000000))).text
    with
  | ok file => exact absurd (hends.ok file hparse) hrefer
  | error e =>
      obtain ⟨cause, location⟩ := e
      cases (hends.error _ hparse).2
      refine ⟨_, _, location, by decide +kernel, hunique, hdocument, hcheck, hparse, ?_⟩
      rw [validateText, hdocument, hparse]
      rfl

end GraphFile

end StrongComponents
