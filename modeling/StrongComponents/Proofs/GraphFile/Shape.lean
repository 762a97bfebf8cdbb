import StrongComponents.Proofs.GraphFile.Coverage
import Mathlib.Algebra.Order.Ring.Rat
import Mathlib.Data.List.Nodup
import Mathlib.Tactic.FieldSimp
import Mathlib.Tactic.NormNum

/-!
# The shape of a graph document

The documents that `checkDocument` accepts are told in two other ways. `graphSchema` puts the shape
together from the keywords of JSON Schema, each of which constrains values of one kind and lets all
others pass. `IsGraphDocument` says what the members of an accepted document are. For documents that
repeat no name all three agree (`checkDocument_shape`), and members other than the two that the
shape names make no difference, not even to what is found wrong.

A number counts as an integer if its value is one, however it is written: `Number.isIntegral_iff`
compares the test on significand and exponent with the rational value.
-/

set_option autoImplicit false

namespace StrongComponents

/-! ## Numbers without a fraction -/

/-- The value of the number. -/
def Binary64.toRat (x : Binary64) :
    ℚ := (if x.negative then -1 else 1) * x.significand * 2 ^ x.exponent

/-- The value of the number. -/
def Number.toRat : Number → ℚ
  | .int i => i
  | .float x => x.toRat

/-- The number has no fractional part. -/
def Number.Whole (n : Number) : Prop := ∃ i : ℤ, n.toRat = i

namespace Binary64

/-- With a power of two below the line, only a multiple of it has an integer as its value. -/
theorem exists_int_iff_dvd (negative : Bool) (significand k : Nat) :
    (∃ i : ℤ, toRat ⟨negative, significand, -(k : ℤ)⟩ = i) ↔ 2 ^ k ∣ significand := by
  have hpow : (2 ^ k : ℚ) ≠ 0 := pow_ne_zero k two_ne_zero
  constructor
  · rintro ⟨i, hi⟩
    have hcross : (if negative then -1 else 1 : ℤ) * significand = i * 2 ^ k := by
      rw [toRat, zpow_neg, zpow_natCast, ← div_eq_mul_inv, div_eq_iff hpow] at hi
      exact_mod_cast hi
    have hdvd : (2 ^ k : ℤ) ∣ significand := by
      cases negative with
      | false => exact ⟨i, by simpa [mul_comm] using hcross⟩
      | true => exact ⟨-i, by simpa [mul_comm, neg_eq_iff_eq_neg] using hcross⟩
    exact_mod_cast hdvd
  · rintro ⟨q, rfl⟩
    refine ⟨(if negative then -1 else 1) * q, ?_⟩
    rw [toRat, zpow_neg, zpow_natCast]
    push_cast
    field_simp

theorem isIntegral_iff (x : Binary64) : x.isIntegral = true ↔ ∃ i : ℤ, x.toRat = i := by
  obtain ⟨negative, significand, exponent⟩ := x
  rcases le_or_gt 0 exponent with hpos | hneg
  · -- Nothing is below the line.
    obtain ⟨k, rfl⟩ := Int.eq_ofNat_of_zero_le hpos
    simp only [isIntegral, hpos, decide_true, Bool.true_or, true_iff]
    refine ⟨(if negative then -1 else 1) * significand * 2 ^ k, ?_⟩
    rw [toRat]
    push_cast
    rfl
  · obtain ⟨k, rfl⟩ : ∃ k : Nat, exponent = -(k : ℤ) := ⟨(-exponent).toNat, by omega⟩
    have hexponent : ¬ (0 : ℤ) ≤ -(k : ℤ) := not_le.2 hneg
    rw [exists_int_iff_dvd, Nat.dvd_iff_mod_eq_zero, isIntegral, decide_eq_false hexponent,
      Bool.false_or, beq_iff_eq, neg_neg, Int.toNat_natCast]
    rfl

end Binary64

theorem Number.isIntegral_iff (n : Number) : n.isIntegral = true ↔ n.Whole := by
  cases n with
  | int i => exact ⟨fun _ => ⟨i, rfl⟩, fun _ => rfl⟩
  | float x => exact x.isIntegral_iff

namespace Json

/-- No object in the value has two members of one name. -/
inductive Unrepeated : Json → Prop where
  | scalar (value : Scalar) : Unrepeated (.scalar value)
  | array {items : List Json} (h : ∀ item ∈ items, Unrepeated item) : Unrepeated (.array items)
  | object {members : List (String × Json)} (hnames : (members.map Prod.fst).Nodup)
      (h : ∀ member ∈ members, Unrepeated member.2) : Unrepeated (.object members)

/-! ## Keywords of JSON Schema -/

/-- A schema says of every value whether it is valid. -/
abbrev Schema := Json → Prop

/-- Types that a schema can name. -/
inductive TypeName where
  | array
  | integer
  | object
  | string

namespace Schema

/-- The keyword `type`. -/
def type : TypeName → Schema
  | .array, value => ∃ items, value = .array items
  | .integer, value => ∃ n, value = .scalar (.number n) ∧ n.Whole
  | .object, value => ∃ members, value = .object members
  | .string, value => ∃ s, value = .ofString s

/-- The keyword `minLength`, which is about texts. -/
def minLength (n : Nat) : Schema
  | .scalar (.string s) => n ≤ s.length
  | _ => True

/-- The keyword `required`, which is about objects. -/
def required (names : List String) : Schema
  | .object members => ∀ name ∈ names, ∃ value, (name, value) ∈ members
  | _ => True

/-- The keyword `properties`, which is about those members of objects that it names. -/
def properties (schemas : List (String × Schema)) : Schema
  | .object members =>
      ∀ property ∈ schemas, ∀ value, (property.1, value) ∈ members → property.2 value
  | _ => True

/-- The keyword `propertyNames`: the schema is for the names of the members of objects, as texts. -/
def propertyNames (schema : Schema) : Schema
  | .object members => ∀ member ∈ members, schema (.ofString member.1)
  | _ => True

/-- The keyword `additionalProperties`, which is about the members of objects that are
not among the named ones. -/
def additionalProperties (named : List String) (schema : Schema) : Schema
  | .object members => ∀ member ∈ members, member.1 ∉ named → schema member.2
  | _ => True

/-- The keyword `items`, which is about arrays. -/
def items (schema : Schema) : Schema
  | .array values => ∀ value ∈ values, schema value
  | _ => True

/-- The keyword `anyOf`. -/
def anyOf (schemas : List Schema) : Schema := fun value => ∃ schema ∈ schemas, schema value

/-- The keywords of one schema, all of which have to hold. -/
def all (keywords : List Schema) : Schema := fun value => ∀ keyword ∈ keywords, keyword value

variable {schema : Schema} {schemas : List Schema} {value : Json}

@[simp] theorem anyOf_nil : ¬ anyOf [] value := by simp [anyOf]

@[simp] theorem anyOf_cons :
    anyOf (schema :: schemas) value ↔ schema value ∨ anyOf schemas value := by simp [anyOf]

@[simp] theorem all_nil : all [] value := by simp [all]

@[simp] theorem all_cons :
    all (schema :: schemas) value ↔ schema value ∧ all schemas value := by simp [all]

theorem minLength_one_iff {s : String} : minLength 1 (.ofString s) ↔ s ≠ "" := by
  show 1 ≤ s.length ↔ s ≠ ""
  rw [Nat.one_le_iff_ne_zero, ne_eq, String.length_eq_zero_iff]

end Schema

end Json

namespace GraphFile

open Json (Schema)

/-- The schema of a neighbour: an integer, or a text that is not empty. -/
def neighborSchema : Schema := .anyOf [.type .integer, .all [.type .string, .minLength 1]]

/-- The schema of one neighbour list. -/
def neighborsSchema : Schema := .all [.type .array, .items neighborSchema]

/-- The schema of all neighbour lists: an object with a list for each name, and no empty name. -/
def adjacencySchema : Schema :=
  .all [.type .object, .propertyNames (.minLength 1), .additionalProperties [] neighborsSchema]

/-- The schema of a graph document. -/
def graphSchema : Schema :=
  .all [.type .object, .required ["adjacency"],
    .properties [("name", .type .string), ("adjacency", adjacencySchema)]]

/-! ## The shape in words -/

/-- A neighbour is a number without fractional part, or a text that is not empty. -/
def IsNeighbor (value : Json) : Prop :=
  (∃ n, value = .scalar (.number n) ∧ n.Whole) ∨ ∃ s, value = .ofString s ∧ s ≠ ""

/-- A neighbour list is an array of neighbours. -/
def IsNeighbors (value : Json) :
    Prop := ∃ items, value = .array items ∧ ∀ item ∈ items, IsNeighbor item

/-- Neighbour lists are an object of which no name is empty and every value is a neighbour list. -/
def IsAdjacency (value : Json) : Prop :=
  ∃ entries, value = .object entries ∧ ∀ entry ∈ entries, entry.1 ≠ "" ∧ IsNeighbors entry.2

/-- A graph document is an object with neighbour lists; if it has a name, the name is a text. -/
def IsGraphDocument (document : Json) : Prop :=
  ∃ members, document = .object members ∧
    (∃ lists, ("adjacency", lists) ∈ members ∧ IsAdjacency lists) ∧
    ∀ name, ("name", name) ∈ members → ∃ s, name = .ofString s

/-! ## The schema and the shape -/

theorem neighborSchema_iff {value : Json} : neighborSchema value ↔ IsNeighbor value := by
  simp only [neighborSchema, Schema.anyOf_cons, Schema.anyOf_nil, or_false, Schema.all_cons,
    Schema.all_nil, and_true]
  apply or_congr Iff.rfl
  constructor
  · rintro ⟨⟨s, rfl⟩, hlength⟩
    exact ⟨s, rfl, Schema.minLength_one_iff.1 hlength⟩
  · rintro ⟨s, rfl, hne⟩
    exact ⟨⟨s, rfl⟩, Schema.minLength_one_iff.2 hne⟩

theorem neighborsSchema_iff {value : Json} : neighborsSchema value ↔ IsNeighbors value := by
  simp only [neighborsSchema, Schema.all_cons, Schema.all_nil, and_true]
  constructor
  · rintro ⟨⟨items, rfl⟩, hitems⟩
    exact ⟨items, rfl, fun item hitem => neighborSchema_iff.1 (hitems item hitem)⟩
  · rintro ⟨items, rfl, hitems⟩
    exact ⟨⟨items, rfl⟩, fun item hitem => neighborSchema_iff.2 (hitems item hitem)⟩

theorem adjacencySchema_iff {value : Json} : adjacencySchema value ↔ IsAdjacency value := by
  simp only [adjacencySchema, Schema.all_cons, Schema.all_nil, and_true]
  constructor
  · rintro ⟨⟨entries, rfl⟩, hnames, hlists⟩
    refine ⟨entries, rfl, fun entry hentry => ?_⟩
    exact ⟨Schema.minLength_one_iff.1 (hnames entry hentry),
      neighborsSchema_iff.1 (hlists entry hentry List.not_mem_nil)⟩
  · rintro ⟨entries, rfl, hentries⟩
    refine ⟨⟨entries, rfl⟩,
      fun entry hentry => Schema.minLength_one_iff.2 (hentries entry hentry).1, ?_⟩
    exact fun entry hentry _ => neighborsSchema_iff.2 (hentries entry hentry).2

/-- Of one name there is one member. -/
theorem eq_of_mem_of_nodup {members : List (String × Json)} (hnames : (members.map Prod.fst).Nodup)
    {name : String} {value other : Json} (hvalue : (name, value) ∈ members)
    (hother : (name, other) ∈ members) : value = other := by
  have heq := List.inj_on_of_nodup_map hnames hvalue hother rfl
  exact (Prod.mk.inj heq).2

theorem graphSchema_iff {document : Json} (h : document.Unrepeated) :
    graphSchema document ↔ IsGraphDocument document := by
  simp only [graphSchema, Schema.all_cons, Schema.all_nil, and_true]
  constructor
  · rintro ⟨⟨members, rfl⟩, hrequired, hproperties⟩
    obtain ⟨lists, hlists⟩ := hrequired "adjacency" List.mem_cons_self
    refine ⟨members, rfl, ⟨lists, hlists, ?_⟩, ?_⟩
    · exact adjacencySchema_iff.1
        (hproperties ("adjacency", adjacencySchema) (by simp) lists hlists)
    · exact hproperties ("name", Schema.type .string) (by simp)
  · rintro ⟨members, rfl, ⟨lists, hlists, hadjacency⟩, hname⟩
    cases h with
    | object hnames _ =>
        refine ⟨⟨members, rfl⟩, by simpa [Schema.required] using ⟨lists, hlists⟩, ?_⟩
        simp only [Schema.properties, List.forall_mem_cons]
        refine ⟨hname, ?_, List.forall_mem_nil _⟩
        intro value hvalue
        -- The keyword is about every member of that name; there is one only.
        rw [eq_of_mem_of_nodup hnames hvalue hlists]
        exact adjacencySchema_iff.2 hadjacency

/-! ## The check and the shape -/

theorem isReference_iff {value : Json} : isReference value = true ↔ IsNeighbor value := by
  unfold isReference
  split
  · rename_i n
    simp [Number.isIntegral_iff, IsNeighbor, Json.ofString]
  · rename_i s
    simp [IsNeighbor, Json.ofString]
  · rename_i hnumber hstring
    simp only [Bool.false_eq_true, false_iff]
    rintro (⟨n, rfl, -⟩ | ⟨s, rfl, -⟩)
    · exact hnumber n rfl
    · exact hstring s rfl

theorem neighborViolations_eq_nil_iff_isNeighbors {list : Json} :
    neighborViolations list = [] ↔ IsNeighbors list := by
  simp only [neighborViolations_eq_nil_iff, isReference_iff, IsNeighbors]

theorem adjacencyViolations_eq_nil_iff_isAdjacency {lists : Json} (h : lists.Unrepeated) :
    adjacencyViolations lists = [] ↔ IsAdjacency lists := by
  cases h with
  | scalar value => simp [adjacencyViolations, IsAdjacency]
  | array => simp [adjacencyViolations, IsAdjacency]
  | @object entries hnames _ =>
      -- Sorting drops no entry where no name is repeated.
      have hmem : ∀ entry, entry ∈ Json.sortMembers entries ↔ entry ∈ entries :=
        fun entry => ⟨Json.mem_of_mem_sortMembers, Json.mem_sortMembers_of_nodup hnames⟩
      have hlists : (Json.sortMembers entries).flatMap (fun entry => neighborViolations entry.2) =
          [] ↔ ∀ entry ∈ entries, IsNeighbors entry.2 := by
        simp only [List.flatMap_eq_nil_iff, hmem, neighborViolations_eq_nil_iff_isNeighbors]
      have hempty : (if entries.any (·.1 = "") then [Violation.emptyVertexName] else []) = [] ↔
          ∀ entry ∈ entries, entry.1 ≠ "" := by
        simp only [ite_eq_right_iff, reduceCtorEq, imp_false, List.any_eq_true, decide_eq_true_eq,
          not_exists, not_and, ne_eq]
      have hall := (and_congr hempty hlists).trans forall₂_and.symm
      rw [and_comm, ← List.append_eq_nil_iff] at hall
      exact hall.trans ⟨fun hentries => ⟨entries, rfl, hentries⟩,
        by rintro ⟨_, ⟨⟩, hentries⟩; exact hentries⟩

theorem nameViolations_eq_nil_iff {name : Json} :
    nameViolations name = [] ↔ ∃ s, name = .ofString s := by
  constructor
  · exact exists_string_of_nameViolations
  · rintro ⟨s, rfl⟩
    rfl

/-- Where no name is repeated a member is found by its name. -/
theorem lookup_eq_some_iff_mem {members : List (String × Json)}
    (hnames : (members.map Prod.fst).Nodup) {name : String} {value : Json} :
    members.lookup name = some value ↔ (name, value) ∈ members := by
  rw [List.lookup_eq_some_iff]
  constructor
  · rintro ⟨before, after, rfl, -⟩
    simp
  · intro hmem
    obtain ⟨before, after, rfl⟩ := List.append_of_mem hmem
    refine ⟨before, after, rfl, ?_⟩
    -- An earlier member of that name would repeat it.
    intro member hmember
    rw [List.map_append, List.map_cons, List.nodup_append] at hnames
    simpa using (hnames.2.2 member.1 (List.mem_map_of_mem hmember) name List.mem_cons_self).symm

theorem checkDocument_iff_isGraphDocument {document : Json} (h : document.Unrepeated) :
    checkDocument document = .ok () ↔ IsGraphDocument document := by
  rw [checkDocument_eq_ok_iff]
  cases h with
  | scalar value => simp [violations, IsGraphDocument]
  | array => simp [violations, IsGraphDocument]
  | @object members hnames hvalues =>
      rw [violations_object_eq_nil_iff]
      simp only [lookup_eq_some_iff_mem hnames, nameViolations_eq_nil_iff]
      constructor
      · rintro ⟨⟨lists, hlists, hshape⟩, hname⟩
        have hadjacency := (adjacencyViolations_eq_nil_iff_isAdjacency (hvalues _ hlists)).1 hshape
        exact ⟨members, rfl, ⟨lists, hlists, hadjacency⟩, hname⟩
      · rintro ⟨_, ⟨⟩, ⟨lists, hlists, hadjacency⟩, hname⟩
        exact ⟨⟨lists, hlists,
          (adjacencyViolations_eq_nil_iff_isAdjacency (hvalues _ hlists)).2 hadjacency⟩, hname⟩

/-! ## Members that play no part -/

/-- The members that the shape names. -/
def shapeMembers (members : List (String × Json)) : List (String × Json) :=
  members.filter fun member => member.1 = adjacencyField ∨ member.1 = nameField

theorem lookup_shapeMembers (members : List (String × Json)) {name : String}
    (h : name = adjacencyField ∨ name = nameField) :
    (shapeMembers members).lookup name = members.lookup name := by
  induction members with
  | nil => rfl
  | cons member members ih =>
      obtain ⟨key, value⟩ := member
      by_cases hname : name = key
      · subst hname
        rw [shapeMembers, List.filter_cons_of_pos (by simpa using h), List.lookup_cons_self,
          List.lookup_cons_self]
      · have hother : (name == key) = false := by simpa using hname
        rw [List.lookup_cons, hother, ← ih, shapeMembers, List.filter_cons]
        split
        · rw [List.lookup_cons, hother]
          rfl
        · rfl

theorem checkDocument_congr {members others : List (String × Json)}
    (h : shapeMembers others = shapeMembers members) :
    checkDocument (.object others) = checkDocument (.object members) := by
  have hlists : others.lookup adjacencyField = members.lookup adjacencyField := by
    rw [← lookup_shapeMembers others (.inl rfl), h, lookup_shapeMembers members (.inl rfl)]
  have hname : others.lookup nameField = members.lookup nameField := by
    rw [← lookup_shapeMembers others (.inr rfl), h, lookup_shapeMembers members (.inr rfl)]
  rw [checkDocument, checkDocument, violations, violations, hlists, hname]

/-- Of documents that repeat no name exactly those are accepted that are graph documents: objects
with neighbour lists under names that are not empty, made of numbers without fractional part and
texts that are not empty, and with a name that is a text if there is one. These are the documents
that the schema says are valid. All other members are free: what the check says can be told from the
members of the two names. -/
theorem checkDocument_shape (document : Json) (h : document.Unrepeated) :
    (checkDocument document = .ok () ↔ IsGraphDocument document) ∧
      (checkDocument document = .ok () ↔ graphSchema document) ∧
      ∀ members others, document = .object members → shapeMembers others = shapeMembers members →
        checkDocument (.object others) = checkDocument document := by
  have hshape := checkDocument_iff_isGraphDocument h
  refine ⟨hshape, hshape.trans (graphSchema_iff h).symm, ?_⟩
  rintro members others rfl hothers
  exact checkDocument_congr hothers

/-- A neighbour that is written as a float without a fraction, one that is a text, and a further
member in whose place others may stand; and a vertex without a name, which is refused. -/
theorem checkDocument_shape_float :
    checkDocument (.object
      [("adjacency", .object [("a", .array
          [.scalar (.number (.float ⟨false, 0x10000000000000, -52⟩)), .ofString "b"])]),
        ("weights", .scalar .null)]) = .ok () ∧
      checkDocument (.object
        [("x", .array []),
          ("adjacency", .object [("a", .array
            [.scalar (.number (.float ⟨false, 0x10000000000000, -52⟩)), .ofString "b"])]),
          ("y", .ofBool true)]) = .ok () ∧
      checkDocument (.object [("adjacency", .object [("", .array [])])]) ≠ .ok () := by
  have hone : (Number.float ⟨false, 0x10000000000000, -52⟩).Whole :=
    ⟨1, by norm_num [Number.toRat, Binary64.toRat]⟩
  have hunique : Json.Unrepeated (.object
      [("adjacency", .object [("a", .array
          [.scalar (.number (.float ⟨false, 0x10000000000000, -52⟩)), .ofString "b"])]),
        ("weights", .scalar .null)]) := by
    refine .object (by decide) (List.forall_mem_cons.2
      ⟨.object (by decide) (List.forall_mem_singleton.2 ?_),
        List.forall_mem_singleton.2 (.scalar _)⟩)
    exact .array (List.forall_mem_cons.2 ⟨.scalar _, List.forall_mem_singleton.2 (.scalar _)⟩)
  have hunique' : Json.Unrepeated (.object [("adjacency", .object [("", .array [])])]) :=
    .object (by decide) (List.forall_mem_singleton.2
      (.object (by decide) (List.forall_mem_singleton.2 (.array (List.forall_mem_nil _)))))
  obtain ⟨hshape, -, hfree⟩ := checkDocument_shape _ hunique
  obtain ⟨hshape', -, -⟩ := checkDocument_shape _ hunique'
  have hneighbors : IsNeighbors (.array
      [.scalar (.number (.float ⟨false, 0x10000000000000, -52⟩)), .ofString "b"]) := by
    refine ⟨_, rfl, List.forall_mem_cons.2 ⟨.inl ⟨_, rfl, hone⟩,
      List.forall_mem_singleton.2 (.inr ?_)⟩⟩
    exact ⟨"b", rfl, by decide⟩
  have haccepted :=
    hshape.2 ⟨_, rfl, ⟨_, List.mem_cons_self, _, rfl,
      List.forall_mem_singleton.2 ⟨by decide, hneighbors⟩⟩, by simp⟩
  refine ⟨haccepted, ?_, ?_⟩
  · rw [hfree _ _ rfl (by simp [shapeMembers, adjacencyField, nameField]), haccepted]
  · intro haccepted'
    obtain ⟨_, ⟨⟩, ⟨lists, hlists, entries, rfl, hentries⟩, -⟩ := hshape'.1 haccepted'
    cases List.mem_singleton.1 hlists
    exact (hentries _ List.mem_cons_self).1 rfl

end GraphFile

end StrongComponents
