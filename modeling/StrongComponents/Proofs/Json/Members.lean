import StrongComponents.Graph.Error
import StrongComponents.Json.Tree
import Mathlib.Data.List.Permutation

/-!
# Members of an object

Of members with one name the last one counts. `Json.lookup_sortMembers` says so for a list of
members, so that sorting them and changing their values can be done in any order
(`Json.sortMembers_map`). `Tree.mem_iff_of_membersToJson` finds the members of a tree among its
values.
-/

set_option autoImplicit false

namespace StrongComponents

namespace Json

/-! ## Sorted members -/

/-- A sorted list is looked up as the map that it comes from. -/
theorem lookup_toList (m : Std.TreeMap String Json compare) (name : String) :
    m.toList.lookup name = m[name]? := by
  cases hlookup : m.toList.lookup name with
  | some value =>
      obtain ⟨before, after, hlist, -⟩ := List.lookup_eq_some_iff.1 hlookup
      have hmem : (name, value) ∈ m.toList := by simp [hlist]
      exact (Std.TreeMap.mem_toList_iff_getElem?_eq_some.1 hmem).symm
  | none =>
      symm
      rw [Option.eq_none_iff_forall_ne_some]
      intro value hvalue
      have hmem := Std.TreeMap.mem_toList_iff_getElem?_eq_some.2 hvalue
      exact absurd rfl (bne_iff_ne.1 (List.lookup_eq_none_iff.1 hlookup _ hmem))

/-- The last member of a name is the one that is found. -/
theorem lookup_sortMembers (members : List (String × Json)) (name : String) :
    (sortMembers members).lookup name = (members.filter (·.1 = name)).getLast?.map Prod.snd := by
  rw [sortMembers, lookup_toList]
  -- The members are inserted from left to right, so the induction takes the last one off.
  induction members using List.reverseRecOn with
  | nil => rfl
  | append_singleton members member ih =>
      rw [Std.TreeMap.ofList_eq_insertMany_empty] at ih ⊢
      rw [Std.TreeMap.insertMany_append, Std.TreeMap.insertMany_list_singleton,
        Std.TreeMap.getElem?_insert, List.filter_append]
      by_cases hname : member.1 = name
      · simp [hname]
      · simp [hname, ih]

theorem mem_of_mem_sortMembers {members : List (String × Json)} {member : String × Json}
    (h : member ∈ sortMembers members) : member ∈ members := by
  obtain ⟨name, value⟩ := member
  have hlookup : (sortMembers members).lookup name = some value := by
    rw [sortMembers, lookup_toList]
    exact Std.TreeMap.mem_toList_iff_getElem?_eq_some.1 h
  rw [lookup_sortMembers] at hlookup
  obtain ⟨last, hlast, rfl⟩ := Option.map_eq_some_iff.1 hlookup
  obtain ⟨hmem, hname⟩ := List.mem_filter.1 (List.mem_of_getLast? hlast)
  rw [← of_decide_eq_true hname]
  exact hmem

theorem mem_of_lookup_sortMembers {members : List (String × Json)} {name : String} {value : Json}
    (h : (sortMembers members).lookup name = some value) : (name, value) ∈ members := by
  rw [sortMembers, lookup_toList] at h
  exact mem_of_mem_sortMembers (Std.TreeMap.mem_toList_iff_getElem?_eq_some.2 h)

theorem nodup_sortMembers (members : List (String × Json)) :
    ((sortMembers members).map Prod.fst).Nodup := by
  rw [sortMembers, List.Nodup, List.pairwise_map]
  refine Std.TreeMap.distinct_keys_toList.imp ?_
  intro member other hne heq
  exact hne (Std.compare_eq_iff_eq.2 heq)

/-- Where no name is repeated, every member is found. -/
theorem lookup_sortMembers_of_nodup {members : List (String × Json)}
    (hnodup : (members.map Prod.fst).Nodup) {name : String} {value : Json}
    (h : (name, value) ∈ members) :
    (sortMembers members).lookup name = some value := by
  obtain ⟨before, after, rfl⟩ := List.append_of_mem h
  rw [List.map_append, List.map_cons, List.nodup_append', List.nodup_cons] at hnodup
  obtain ⟨-, ⟨hafter, -⟩, hbefore⟩ := hnodup
  have hnone : ∀ part : List (String × Json), name ∉ part.map Prod.fst →
      part.filter (·.1 = name) = [] := by
    intro part hname
    rw [List.filter_eq_nil_iff]
    intro member hmem heq
    exact hname (List.mem_map.2 ⟨member, hmem, of_decide_eq_true heq⟩)
  rw [lookup_sortMembers, List.filter_append,
    hnone before fun hmem => hbefore hmem List.mem_cons_self,
    List.filter_cons_of_pos (by simp), hnone after hafter]
  rfl

theorem mem_sortMembers_of_nodup {members : List (String × Json)}
    (hnodup : (members.map Prod.fst).Nodup) {member : String × Json} (h : member ∈ members) :
    member ∈ sortMembers members := by
  obtain ⟨name, value⟩ := member
  have hlookup := lookup_sortMembers_of_nodup hnodup h
  rw [sortMembers, lookup_toList] at hlookup
  exact Std.TreeMap.mem_toList_iff_getElem?_eq_some.2 hlookup

/-- What stays of some members is the last one of each name. -/
theorem mem_sortMembers_iff {members : List (String × Json)} {name : String} {value : Json} :
    (name, value) ∈ sortMembers members ↔
      ∃ before after, members = before ++ (name, value) :: after ∧
        ∀ later ∈ after, later.1 ≠ name := by
  rw [sortMembers, Std.TreeMap.mem_toList_iff_getElem?_eq_some, ← lookup_toList, ← sortMembers,
    lookup_sortMembers]
  constructor
  · intro h
    obtain ⟨⟨name', value'⟩, hlast, rfl⟩ := Option.map_eq_some_iff.1 h
    obtain ⟨front, hfront⟩ := List.getLast?_eq_some_iff.1 hlast
    obtain ⟨before, rest, rfl, -, hrest⟩ := List.filter_eq_append_iff.1 hfront
    obtain ⟨between, after, rfl, -, hname, hafter⟩ := List.filter_eq_cons_iff.1 hrest
    cases of_decide_eq_true hname
    refine ⟨before ++ between, after, by rw [List.append_assoc], ?_⟩
    intro later hlater heq
    exact List.filter_eq_nil_iff.1 hafter later hlater (decide_eq_true heq)
  · rintro ⟨before, after, rfl, hafter⟩
    have hnone : after.filter (·.1 = name) = [] := by simpa [List.filter_eq_nil_iff] using hafter
    rw [List.filter_append, List.filter_cons_of_pos (by simp), hnone, List.getLast?_append]
    rfl

/-- Sorting members loses no name. -/
theorem mem_map_fst_sortMembers {members : List (String × Json)} {name : String} :
    name ∈ (sortMembers members).map Prod.fst ↔ name ∈ members.map Prod.fst := by
  constructor
  · intro h
    obtain ⟨member, hmember, rfl⟩ := List.mem_map.1 h
    exact List.mem_map_of_mem (mem_of_mem_sortMembers hmember)
  · intro h
    obtain ⟨member, hmember, rfl⟩ := List.mem_map.1 h
    have hfilter : member ∈ members.filter (·.1 = member.1) :=
      List.mem_filter.2 ⟨hmember, decide_eq_true rfl⟩
    have hlookup := lookup_sortMembers members member.1
    rw [List.getLast?_eq_some_getLast (List.ne_nil_of_mem hfilter), Option.map_some, sortMembers,
      lookup_toList] at hlookup
    exact List.mem_map.2 ⟨_, Std.TreeMap.mem_toList_iff_getElem?_eq_some.2 hlookup, rfl⟩

/-- The entries of a map make up the same map again. -/
theorem toList_ofList_toList {α : Type} (m : Std.TreeMap String α compare) :
    (Std.TreeMap.ofList m.toList compare).toList = m.toList := by
  apply Std.TreeMap.Equiv.toList_eq
  apply Std.TreeMap.Equiv.of_forall_constGet?_eq
  intro name
  cases hget : m[name]? with
  | some value =>
      have hmem := Std.TreeMap.mem_toList_iff_getElem?_eq_some.2 hget
      exact Std.TreeMap.getElem?_ofList_of_mem Std.ReflCmp.compare_self
        Std.TreeMap.distinct_keys_toList hmem
  | none =>
      apply Std.TreeMap.getElem?_ofList_of_contains_eq_false
      rw [← Bool.not_eq_true, List.contains_iff_mem]
      intro hname
      obtain ⟨entry, hentry, rfl⟩ := List.mem_map.1 hname
      rw [Std.TreeMap.mem_toList_iff_getElem?_eq_some.1 hentry] at hget
      cases hget

theorem sortMembers_sortMembers (members : List (String × Json)) :
    sortMembers (sortMembers members) = sortMembers members :=
  toList_ofList_toList _

/-- Other values under the same names have the same order. -/
theorem sortMembers_map (f : String → Json → Json) (members : List (String × Json)) :
    sortMembers (members.map fun member => (member.1, f member.1 member.2)) =
      (sortMembers members).map fun member => (member.1, f member.1 member.2) := by
  have hmap : (sortMembers members).map (fun member => (member.1, f member.1 member.2)) =
      ((Std.TreeMap.ofList members compare).map f).toList := Std.TreeMap.toList_map.symm
  rw [hmap]
  apply Std.TreeMap.Equiv.toList_eq
  apply Std.TreeMap.Equiv.of_forall_constGet?_eq
  intro name
  rw [Std.TreeMap.getElem?_map, ← lookup_toList, ← lookup_toList]
  -- The last member of a name stays the last one, and `f` is applied to it under that name.
  have hlast := lookup_sortMembers members name
  have hlast' := lookup_sortMembers (members.map fun member => (member.1, f member.1 member.2)) name
  rw [sortMembers] at hlast hlast'
  rw [hlast, hlast', List.filter_map, List.getLast?_map]
  cases hfound : (members.filter (·.1 = name)).getLast? with
  | none => simp [Function.comp_def, hfound]
  | some member =>
      have hname : member.1 = name := by
        simpa using (List.mem_filter.1 (List.mem_of_getLast? hfound)).2
      simp [Function.comp_def, hfound, hname]

/-! ## Canonical values, part by part -/

theorem canonicalItems_eq_map (items : List Json) : canonicalItems items = items.map canonical := by
  induction items with
  | nil => rfl
  | cons item items ih => rw [canonicalItems, ih, List.map_cons]

theorem canonicalMembers_eq_map (members : List (String × Json)) :
    canonicalMembers members = members.map fun (name, value) => (name, value.canonical) := by
  induction members with
  | nil => rfl
  | cons member members ih => rw [canonicalMembers, ih, List.map_cons]

theorem canonicalMembers_sortMembers (members : List (String × Json)) :
    canonicalMembers (sortMembers members) = sortMembers (canonicalMembers members) := by
  rw [canonicalMembers_eq_map, canonicalMembers_eq_map]
  exact (sortMembers_map (fun _ value => value.canonical) members).symm

mutual

/-- A canonical value is canonical already. -/
theorem canonical_canonical : ∀ json : Json, json.canonical.canonical = json.canonical
  | .scalar _ => rfl
  | .array items => by rw [canonical, canonical, canonicalItems_canonicalItems items]
  | .object members => by
      rw [canonical, canonical, canonicalMembers_sortMembers,
        canonicalMembers_canonicalMembers members, sortMembers_sortMembers]

theorem canonicalItems_canonicalItems : ∀ items : List Json,
    canonicalItems (canonicalItems items) = canonicalItems items
  | [] => rfl
  | item :: items => by
      rw [canonicalItems, canonicalItems, canonical_canonical item,
        canonicalItems_canonicalItems items]

theorem canonicalMembers_canonicalMembers : ∀ members : List (String × Json),
    canonicalMembers (canonicalMembers members) = canonicalMembers members
  | [] => rfl
  | (name, value) :: members => by
      rw [canonicalMembers, canonicalMembers, canonical_canonical value,
        canonicalMembers_canonicalMembers members]

end

end Json

/-! ## Values of a tree, part by part -/

namespace Tree

theorem itemsToJson_cons_eq_ok_iff {tree : Tree} {after : Nat} {rest : List (Tree × Nat)}
    {values : List Json} :
    itemsToJson ((tree, after) :: rest) = .ok values ↔
      ∃ value values', tree.toJson = .ok value ∧ itemsToJson rest = .ok values' ∧
        values = value :: values' := by
  rw [itemsToJson]
  cases tree.toJson with
  | error e => simp
  | ok value =>
      rw [map_eq_ok_iff]
      simp [eq_comm]

theorem membersToJson_cons_eq_ok_iff {key : Key} {tree : Tree} {rest : List (Key × Tree)}
    {values : List (String × Json)} :
    membersToJson ((key, tree) :: rest) = .ok values ↔
      ∃ value values', tree.toJson = .ok value ∧ membersToJson rest = .ok values' ∧
        values = (key.name, value) :: values' := by
  rw [membersToJson]
  cases tree.toJson with
  | error e => simp
  | ok value =>
      rw [map_eq_ok_iff]
      simp [eq_comm]

theorem toJson_array_eq_ok_iff {start : Nat} {items : List (Tree × Nat)}
    {fault : Option (Fault SyntaxError)} {value : Json} :
    (array start items fault).toJson = .ok value ↔
      fault = none ∧ ∃ values, itemsToJson items = .ok values ∧ value = .array values := by
  cases hitems : itemsToJson items with
  | error e => simp [toJson, hitems]
  | ok values => cases fault <;> simp [toJson, hitems, eq_comm]

theorem toJson_object_eq_ok_iff {start : Nat} {members : List (Key × Tree)}
    {fault : Option (Fault SyntaxError)} {value : Json} :
    (object start members fault).toJson = .ok value ↔
      fault = none ∧ ∃ values, membersToJson members = .ok values ∧
        value = .object (Json.sortMembers values) := by
  cases hmembers : membersToJson members with
  | error e => simp [toJson, hmembers]
  | ok values => cases fault <;> simp [toJson, hmembers, eq_comm]

theorem toJson_array_of_items {start : Nat} {items : List (Tree × Nat)} {values : List Json}
    (h : itemsToJson items = .ok values) :
    (array start items none).toJson = .ok (.array values) := by
  simp [toJson_array_eq_ok_iff, h]

theorem toJson_object_of_members {start : Nat} {members : List (Key × Tree)}
    {values : List (String × Json)} (h : membersToJson members = .ok values) :
    (object start members none).toJson = .ok (.object (Json.sortMembers values)) := by
  simp [toJson_object_eq_ok_iff, h]

/-- A tree that holds a value without parts is that value. -/
theorem exists_of_toJson_scalar {tree : Tree} {value : Scalar}
    (h : tree.toJson = .ok (.scalar value)) :
    ∃ stop, tree = .scalar value stop := by
  cases tree with
  | scalar value' stop =>
      cases h
      exact ⟨stop, rfl⟩
  | array => simp [toJson_array_eq_ok_iff] at h
  | object => simp [toJson_object_eq_ok_iff] at h
  | broken => cases h

theorem exists_of_toJson_array {tree : Tree} {values : List Json}
    (h : tree.toJson = .ok (.array values)) :
    ∃ start items, tree = .array start items none ∧ itemsToJson items = .ok values := by
  cases tree with
  | scalar => cases h
  | array start items fault =>
      obtain ⟨rfl, found, hitems, heq⟩ := toJson_array_eq_ok_iff.1 h
      cases heq
      exact ⟨start, items, rfl, hitems⟩
  | object => simp [toJson_object_eq_ok_iff] at h
  | broken => cases h

/-- A tree that holds an object has its members, maybe in another order and some of them
repeated. -/
theorem exists_of_toJson_object {tree : Tree} {values : List (String × Json)}
    (h : tree.toJson = .ok (.object values)) :
    ∃ start members found, tree = .object start members none ∧ membersToJson members = .ok found ∧
      values = Json.sortMembers found := by
  cases tree with
  | scalar => cases h
  | array => simp [toJson_array_eq_ok_iff] at h
  | object start members fault =>
      obtain ⟨rfl, found, hmembers, heq⟩ := toJson_object_eq_ok_iff.1 h
      cases heq
      exact ⟨start, members, found, rfl, hmembers, rfl⟩
  | broken => cases h

theorem map_fst_of_membersToJson {members : List (Key × Tree)} {values : List (String × Json)}
    (h : membersToJson members = .ok values) :
    values.map Prod.fst = members.map fun member => member.1.name := by
  induction members generalizing values with
  | nil =>
      cases h
      rfl
  | cons member members ih =>
      obtain ⟨key, tree⟩ := member
      obtain ⟨value, others, -, hothers, rfl⟩ := membersToJson_cons_eq_ok_iff.1 h
      rw [List.map_cons, List.map_cons, ih hothers]

/-- The values of an object are those of its members, each under the name of its member. -/
theorem mem_iff_of_membersToJson {members : List (Key × Tree)} {values : List (String × Json)}
    (h : membersToJson members = .ok values) (name : String) (value : Json) :
    (name, value) ∈ values ↔ ∃ key tree, (key, tree) ∈ members ∧ key.name = name ∧
      tree.toJson = .ok value := by
  induction members generalizing values with
  | nil =>
      cases h
      simp
  | cons member members ih =>
      obtain ⟨key, tree⟩ := member
      obtain ⟨first, others, hfirst, hothers, rfl⟩ := membersToJson_cons_eq_ok_iff.1 h
      rw [List.mem_cons, ih hothers]
      constructor
      · rintro (heq | ⟨key', tree', hmem, hname, htree⟩)
        · cases heq
          exact ⟨key, tree, List.mem_cons_self, rfl, hfirst⟩
        · exact ⟨key', tree', List.mem_cons_of_mem _ hmem, hname, htree⟩
      · rintro ⟨key', tree', hmem, rfl, htree⟩
        rcases List.mem_cons.1 hmem with heq | hmem
        · cases heq
          cases hfirst.symm.trans htree
          exact .inl rfl
        · exact .inr ⟨key', tree', hmem, rfl, htree⟩

end Tree

/-! ## Members of a text -/

namespace TextTree

/-- The text is an object that has a member with this name and this value. Of members
with one name, each counts. -/
def HasMember (t : TextTree) (name : String) (value : Json) : Prop :=
  ∃ start members fault key tree, t.root = .object start members fault ∧ (key, tree) ∈ members ∧
    key.name = name ∧
    tree.toJson = .ok value

theorem hasMember_iff {t : TextTree} {start : Nat} {members : List (Key × Tree)}
    {fault : Option (Fault SyntaxError)} {values : List (String × Json)}
    (hroot : t.root = .object start members fault)
    (hvalues : Tree.membersToJson members = .ok values) (name : String) (value : Json) :
    t.HasMember name value ↔ (name, value) ∈ values := by
  rw [Tree.mem_iff_of_membersToJson hvalues]
  constructor
  · rintro ⟨start', members', fault', key, tree, hroot', hmember⟩
    cases hroot.symm.trans hroot'
    exact ⟨key, tree, hmember⟩
  · rintro ⟨key, tree, hmember⟩
    exact ⟨start, members, fault, key, tree, hroot, hmember⟩

/-- A reader succeeds on a text if it does on the value and nothing comes after it. -/
theorem interpret_eq_ok_iff {ε α : Type} {read : Tree → Except (Fault ε) α}
    {syntaxError : SyntaxError → ε} {t : TextTree} {a : α} :
    t.interpret read syntaxError = .ok a ↔ read t.root = .ok a ∧ t.trailing = none := by
  obtain ⟨root, trailing⟩ := t
  rw [interpret]
  rcases hread : read root with e | b
  · simp
  · rcases trailing with _ | fault
    · simp
    · simp

/-- Where nothing comes after the value, a text is read as its value is. -/
theorem interpret_of_trailing {ε α : Type} {read : Tree → Except (Fault ε) α}
    {syntaxError : SyntaxError → ε} {t : TextTree} (h : t.trailing = none) :
    t.interpret read syntaxError = read t.root := by
  rw [interpret, h]
  cases read t.root with
  | error e => rfl
  | ok a => rfl

end TextTree

theorem Json.parse_eq_ok_iff {text : String} {value : Json} :
    Json.parse text = .ok value ↔
      (TextTree.ofText text.toList).root.toJson = .ok value ∧
        (TextTree.ofText text.toList).trailing = none := by
  rw [Json.parse, mapError_eq_ok_iff, TextTree.interpret_eq_ok_iff]

end StrongComponents
