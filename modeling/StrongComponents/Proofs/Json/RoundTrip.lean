import StrongComponents.Proofs.Json.Layout
import StrongComponents.Proofs.Json.Members

/-!
# Reading values back

The text of a value in any layout of blanks is read into a tree that holds the value, with all
members in the order of the text (`Json.Readable.ofText`). The tree is built from the tokens by a
machine that keeps the arrays and objects around the next value on a stack. What it does on the text
of one value (`Tree.ReadsInto`) is proved by induction on the nesting, and for the items and members
of one value by induction on the list of them.
-/

set_option autoImplicit false

namespace StrongComponents

namespace Tree

/-! ## Trees that hold a value -/

mutual

/-- The tree is the value, without a fault. Where its parts stand in the text does not matter. -/
def Holds : Json → Tree → Prop
  | .scalar value, tree => ∃ stop, tree = .scalar value stop
  | .array items, tree => ∃ start trees, tree = .array start trees none ∧ HoldsItems items trees
  | .object members, tree =>
      ∃ start trees, tree = .object start trees none ∧ HoldsMembers members trees

/-- The trees are the items in order. -/
def HoldsItems : List Json → List (Tree × Nat) → Prop
  | [], trees => trees = []
  | item :: items, trees =>
    ∃ tree after others, trees = (tree, after) :: others ∧ Holds item tree ∧ HoldsItems items others

/-- The trees are the members in order, and a name that occurs several times is there as often. -/
def HoldsMembers : List (String × Json) → List (Key × Tree) → Prop
  | [], trees => trees = []
  | (name, value) :: members, trees =>
    ∃ key tree others, trees = (key, tree) :: others ∧ key.name = name ∧ Holds value tree ∧
      HoldsMembers members others

end

mutual

/-- The value of such a tree has its members in order. -/
theorem toJson_of_holds :
    ∀ {json : Json} {tree : Tree}, Holds json tree → tree.toJson = .ok json.canonical
  | .scalar value, tree, h => by
      obtain ⟨stop, rfl⟩ := h
      rfl
  | .array items, tree, h => by
      obtain ⟨start, trees, rfl, hitems⟩ := h
      exact toJson_array_of_items (itemsToJson_of_holds hitems)
  | .object members, tree, h => by
      obtain ⟨start, trees, rfl, hmembers⟩ := h
      exact toJson_object_of_members (membersToJson_of_holds hmembers)

theorem itemsToJson_of_holds :
    ∀ {items : List Json} {trees : List (Tree × Nat)}, HoldsItems items trees →
    itemsToJson trees = .ok (Json.canonicalItems items)
  | [], trees, h => by
      cases h
      rfl
  | item :: items, trees, h => by
      obtain ⟨tree, after, others, rfl, hitem, hitems⟩ := h
      exact itemsToJson_cons_eq_ok_iff.2 ⟨_, _, toJson_of_holds hitem, itemsToJson_of_holds hitems,
        rfl⟩

theorem membersToJson_of_holds : ∀ {members : List (String × Json)} {trees : List (Key × Tree)},
    HoldsMembers members trees → membersToJson trees = .ok (Json.canonicalMembers members)
  | [], trees, h => by
      cases h
      rfl
  | (name, value) :: members, trees, h => by
      obtain ⟨key, tree, others, rfl, rfl, hvalue, hmembers⟩ := h
      exact membersToJson_cons_eq_ok_iff.2 ⟨_, _, toJson_of_holds hvalue,
        membersToJson_of_holds hmembers, rfl⟩

end

/-! ## The machine on one value -/

/-- The next value is due, inside these arrays and objects. -/
inductive Awaits : State → List Pending → Prop where
  | value (outer : List Pending) : Awaits (.value outer) outer
  | item (isFirst : Bool) (start : Nat) (items : List (Tree × Nat)) (outer : List Pending) :
      Awaits (.item isFirst start items outer) (.item start items :: outer)

theorem read_of_step {state next : State} {t : Token} {tokens : List Token}
    (h : step state t (following t tokens) = .running next) :
    read state (t :: tokens) = read next tokens := by
  have hstate : ∀ tree, state ≠ .separator tree [] := by
    rintro tree rfl
    cases h
  rw [read, h]
  exact hstate

/-- A token that starts a value is taken alike wherever a value is due. -/
theorem Awaits.step_eq {state : State} {outer : List Pending} (h : Awaits state outer) {t : Token}
    (hclose : t.lexeme ≠ .closeArray) (hend : t.lexeme ≠ .endOfText) (following : Token) :
    step state t following = startValue t outer := by
  cases h with
  | value => rfl
  | item isFirst start items outer =>
      rw [step, startItem]
      split
      · rename_i hlexeme
        exact absurd hlexeme hclose
      · rename_i hlexeme
        exact absurd hlexeme hend
      · rfl

/-- Where this value is due inside `outer`, its text is read into a tree that holds it. -/
structure ReadsInto (layout : Json.Layout) (json : Json) (outer : List Pending) : Prop where
  exists_tree : ∀ {state : State} {rest : List Char}, Awaits state outer → Delimited rest →
    ∀ level offset, ∃ tree stop, Holds json tree ∧
      read state (Token.scan ⟨layout.text level json ++ rest, offset⟩) =
        read (.separator tree outer) (Token.scan ⟨rest, stop⟩)

theorem readsInto_scalar (layout : Json.Layout) {value : Scalar}
    (hvalue : ∀ n, value = .number n → n.ReadBack) (outer : List Pending) :
    ReadsInto layout (.scalar value) outer := by
  constructor
  intro state rest hstate hrest level offset
  obtain ⟨stop, hscan⟩ := Token.scan_scalar hvalue hrest offset
  refine ⟨.scalar value stop, stop, ⟨stop, rfl⟩, ?_⟩
  rw [Json.Layout.text, hscan]
  apply read_of_step
  rw [hstate.step_eq (by simp) (by simp)]
  rfl

/-- The text of a value that stands alone is a tree that holds the value, and nothing comes after
it. -/
theorem ReadsInto.ofText {layout : Json.Layout} {json : Json} (h : ReadsInto layout json [])
    (level : Nat) :
    ∃ tree, Holds json tree ∧ TextTree.ofText (layout.text level json) = ⟨tree, none⟩ := by
  obtain ⟨tree, stop, hholds, hread⟩ := h.exists_tree (.value []) delimited_nil level 0
  refine ⟨tree, hholds, ?_⟩
  rw [List.append_nil] at hread
  rw [TextTree.ofText, hread, Token.scan_nil]
  rfl

theorem ReadsInto.parse_eq {layout : Json.Layout} {json : Json} (h : ReadsInto layout json [])
    (level : Nat) :
    Json.parse (String.ofList (layout.text level json)) = .ok json.canonical := by
  obtain ⟨tree, hholds, htext⟩ := h.ofText level
  rw [Json.parse_eq_ok_iff, String.toList_ofList, htext]
  exact ⟨toJson_of_holds hholds, rfl⟩

/-! ## Items and members -/

section Parts

variable {start : Nat} {outer : List Pending}

theorem read_closeArray (tree : Tree) (done : List (Tree × Nat)) (rest : List Char)
    (offset : Nat) :
    read (.separator tree (.item start done :: outer)) (Token.scan ⟨']' :: rest, offset⟩) =
      read (.separator (.array start (done.reverse ++ [(tree, offset + 1)]) none) outer)
        (Token.scan ⟨rest, offset + 1⟩) := by
  rw [Token.scan_punctuation (by rfl), ← List.reverse_cons]
  exact read_of_step rfl

theorem read_itemComma (start : Nat) (outer : List Pending) (tree : Tree) (done : List (Tree × Nat))
    (rest : List Char) (offset : Nat) :
    ∃ after, read (.separator tree (.item start done :: outer))
        (Token.scan ⟨',' :: rest, offset⟩) =
      read (.item false start ((tree, after) :: done) outer) (Token.scan ⟨rest, offset + 1⟩) := by
  rw [Token.scan_punctuation (by rfl)]
  exact ⟨_, read_of_step rfl⟩

theorem read_closeObject (tree : Tree) (done : List (Key × Tree)) (key : Key) (rest : List Char)
    (offset : Nat) :
    read (.separator tree (.member start done key :: outer)) (Token.scan ⟨'\x7d' :: rest, offset⟩) =
      read (.separator (.object start (done.reverse ++ [(key, tree)]) none) outer)
        (Token.scan ⟨rest, offset + 1⟩) := by
  rw [Token.scan_punctuation (by rfl), ← List.reverse_cons]
  exact read_of_step rfl

theorem read_memberComma (tree : Tree) (done : List (Key × Tree)) (key : Key) (rest : List Char)
    (offset : Nat) :
    read (.separator tree (.member start done key :: outer)) (Token.scan ⟨',' :: rest, offset⟩) =
      read (.key false start ((key, tree) :: done) outer) (Token.scan ⟨rest, offset + 1⟩) := by
  rw [Token.scan_punctuation (by rfl)]
  exact read_of_step rfl

/-- A name and the colon after it are taken off, and the value is due. -/
theorem read_key (start : Nat) (outer : List Pending) (name : String) (isFirst : Bool)
    (done : List (Key × Tree)) (rest : List Char) (offset : Nat) :
    ∃ key stop, key.name = name ∧
      read (.key isFirst start done outer)
          (Token.scan ⟨Json.stringText name ++ ':' :: rest, offset⟩) =
        read (.value (.member start done key :: outer)) (Token.scan ⟨rest, stop⟩) := by
  obtain ⟨stop, hscan⟩ := Token.scan_string name (':' :: rest) offset
  rw [hscan, Token.scan_punctuation (by rfl), read_of_step rfl, read_of_step rfl]
  exact ⟨_, _, rfl, rfl⟩

variable {layout : Json.Layout}

/-- The items of an array are read one after the other up to its closing bracket. -/
theorem read_items (hlayout : layout.Blank) {items : List Json} (hne : items ≠ [])
    (h : ∀ item ∈ items, ∀ done, ReadsInto layout item (.item start done :: outer)) (level : Nat)
    {gap : List Char} (hgap : ∀ c ∈ gap, Token.isBlank c = true) (rest : List Char) (isFirst : Bool)
    (done : List (Tree × Nat)) (offset : Nat) :
    ∃ trees stop, HoldsItems items trees ∧
      read (.item isFirst start done outer)
          (Token.scan ⟨layout.itemsText level items ++ (gap ++ ']' :: rest), offset⟩) =
        read (.separator (.array start (done.reverse ++ trees) none) outer)
          (Token.scan ⟨rest, stop⟩) := by
  induction items generalizing isFirst done offset with
  | nil => exact absurd rfl hne
  | cons item items ih =>
      have hitem := h item List.mem_cons_self done
      cases items with
      | nil =>
          have hrest : Delimited (gap ++ ']' :: rest) :=
            Token.delimited_append hgap (delimited_cons (by decide) rest)
          obtain ⟨tree, stop, hholds, hread⟩ := hitem.exists_tree (.item isFirst start done outer)
            hrest level (offset + (layout.gap level).length)
          refine ⟨[(tree, stop + gap.length + 1)], stop + gap.length + 1,
            ⟨tree, _, [], rfl, hholds, rfl⟩, ?_⟩
          rw [Json.Layout.itemsText, List.append_assoc,
            Token.scan_append_of_isBlank (hlayout.gap level), hread,
            Token.scan_append_of_isBlank hgap, read_closeArray]
      | cons next more =>
          -- After the comma the array is where it was, with one more item done and no longer at its
          -- first one.
          obtain ⟨tree, stop, hholds, hread⟩ := hitem.exists_tree (.item isFirst start done outer)
            (delimited_cons (c := ',') (by decide)
              (layout.itemsText level (next :: more) ++ (gap ++ ']' :: rest)))
            level (offset + (layout.gap level).length)
          obtain ⟨after, hcomma⟩ := read_itemComma start outer tree done
            (layout.itemsText level (next :: more) ++ (gap ++ ']' :: rest)) stop
          obtain ⟨trees, stop', hholds', hread'⟩ := ih (by simp)
            (fun item hmem => h item (List.mem_cons_of_mem _ hmem)) false ((tree, after) :: done)
            (stop + 1)
          refine ⟨(tree, after) :: trees, stop', ⟨tree, after, trees, rfl, hholds, hholds'⟩, ?_⟩
          rw [Json.Layout.itemsText, List.append_assoc, List.append_assoc, List.cons_append,
            Token.scan_append_of_isBlank (hlayout.gap level), hread, hcomma, hread',
            List.reverse_cons, List.append_assoc, List.singleton_append]

/-- The members of an object are read one after the other up to its closing brace. -/
theorem read_members (hlayout : layout.Blank) {members : List (String × Json)} (hne : members ≠ [])
    (h : ∀ member ∈ members, ∀ done key,
      ReadsInto layout member.2 (.member start done key :: outer))
    (level : Nat) {gap : List Char} (hgap : ∀ c ∈ gap, Token.isBlank c = true) (rest : List Char)
    (isFirst : Bool) (done : List (Key × Tree)) (offset : Nat) :
    ∃ trees stop, HoldsMembers members trees ∧
      read (.key isFirst start done outer)
          (Token.scan ⟨layout.membersText level members ++ (gap ++ '\x7d' :: rest), offset⟩) =
        read (.separator (.object start (done.reverse ++ trees) none) outer)
          (Token.scan ⟨rest, stop⟩) := by
  induction members generalizing isFirst done offset with
  | nil => exact absurd rfl hne
  | cons member members ih =>
      obtain ⟨name, value⟩ := member
      cases members with
      | nil =>
          have hrest : Delimited (gap ++ '\x7d' :: rest) :=
            Token.delimited_append hgap (delimited_cons (by decide) rest)
          obtain ⟨key, colon, hname, hkey⟩ := read_key start outer name isFirst done
            (layout.afterColon ++ (layout.text level value ++ (gap ++ '\x7d' :: rest)))
            (offset + (layout.gap level).length)
          obtain ⟨tree, stop, hholds, hread⟩ := (h _ List.mem_cons_self done key).exists_tree
            (.value _) hrest level (colon + layout.afterColon.length)
          refine ⟨[(key, tree)], stop + gap.length + 1, ⟨key, tree, [], rfl, hname, hholds, rfl⟩,
            ?_⟩
          rw [Json.Layout.membersText, List.append_assoc, List.append_assoc, List.append_assoc,
            List.cons_append, Token.scan_append_of_isBlank (hlayout.gap level), hkey,
            Token.scan_append_of_isBlank hlayout.afterColon, hread,
            Token.scan_append_of_isBlank hgap, read_closeObject]
      | cons next more =>
          obtain ⟨key, colon, hname, hkey⟩ := read_key start outer name isFirst done
            (layout.afterColon ++ (layout.text level value ++
              ',' :: (layout.membersText level (next :: more) ++ (gap ++ '\x7d' :: rest))))
            (offset + (layout.gap level).length)
          obtain ⟨tree, stop, hholds, hread⟩ := (h _ List.mem_cons_self done key).exists_tree
            (.value _) (delimited_cons (c := ',') (by decide)
              (layout.membersText level (next :: more) ++ (gap ++ '\x7d' :: rest)))
            level (colon + layout.afterColon.length)
          obtain ⟨trees, stop', hholds', hread'⟩ := ih (by simp)
            (fun member hmem => h member (List.mem_cons_of_mem _ hmem)) false ((key, tree) :: done)
            (stop + 1)
          refine ⟨(key, tree) :: trees, stop',
            ⟨key, tree, trees, rfl, hname, hholds, hholds'⟩, ?_⟩
          rw [Json.Layout.membersText, List.append_assoc, List.append_assoc, List.append_assoc,
            List.append_assoc, List.cons_append, List.cons_append,
            Token.scan_append_of_isBlank (hlayout.gap level), hkey,
            Token.scan_append_of_isBlank hlayout.afterColon, hread, read_memberComma, hread',
            List.reverse_cons, List.append_assoc, List.singleton_append]

end Parts

/-! ## Nested values -/

section Nesting

variable {layout : Json.Layout} {outer : List Pending}

theorem readsInto_array (hlayout : layout.Blank) (hroom : outer.length + 1 < nestingLimit)
    {items : List Json} (h : ∀ item ∈ items, ∀ pending, ReadsInto layout item (pending :: outer)) :
    ReadsInto layout (.array items) outer := by
  constructor
  intro state rest hstate hrest level offset
  have hopen : ∀ text, read state (Token.scan ⟨'[' :: text, offset⟩) =
      read (.item true offset [] outer) (Token.scan ⟨text, offset + 1⟩) := by
    intro text
    rw [Token.scan_punctuation (by rfl)]
    apply read_of_step
    rw [hstate.step_eq (by simp) (by simp)]
    exact if_pos hroom
  by_cases hempty : items = []
  · -- The closing bracket is taken in place of a first item.
    subst hempty
    refine ⟨.array offset [] none, offset + 2, ⟨offset, [], rfl, rfl⟩, ?_⟩
    rw [Json.Layout.text, List.cons_append, hopen, List.singleton_append,
      Token.scan_punctuation (by rfl)]
    exact read_of_step rfl
  · obtain ⟨trees, stop, hholds, hread⟩ :=
      read_items hlayout hempty (fun item hmem done => h item hmem _) (level + 1)
        (hlayout.gap level) rest true [] (offset + 1)
    refine ⟨.array offset trees none, stop, ⟨offset, trees, rfl, hholds⟩, ?_⟩
    rw [Json.Layout.text_array _ _ hempty, List.cons_append, List.append_assoc, List.append_assoc,
      List.singleton_append, hopen]
    exact hread

theorem readsInto_object (hlayout : layout.Blank) (hroom : outer.length + 1 < nestingLimit)
    {members : List (String × Json)}
    (h : ∀ member ∈ members, ∀ pending, ReadsInto layout member.2 (pending :: outer)) :
    ReadsInto layout (.object members) outer := by
  constructor
  intro state rest hstate hrest level offset
  have hopen : ∀ text, read state (Token.scan ⟨'\x7b' :: text, offset⟩) =
      read (.key true offset [] outer) (Token.scan ⟨text, offset + 1⟩) := by
    intro text
    rw [Token.scan_punctuation (by rfl)]
    apply read_of_step
    rw [hstate.step_eq (by simp) (by simp)]
    exact if_pos hroom
  by_cases hempty : members = []
  · subst hempty
    refine ⟨.object offset [] none, offset + 2, ⟨offset, [], rfl, rfl⟩, ?_⟩
    rw [Json.Layout.text, List.cons_append, hopen, List.singleton_append,
      Token.scan_punctuation (by rfl)]
    exact read_of_step rfl
  · obtain ⟨trees, stop, hholds, hread⟩ := read_members hlayout hempty
      (fun member hmem done key => h member hmem _) (level + 1) (hlayout.gap level) rest true []
      (offset + 1)
    refine ⟨.object offset trees none, stop, ⟨offset, trees, rfl, hholds⟩, ?_⟩
    rw [Json.Layout.text_object _ _ hempty, List.cons_append, List.append_assoc, List.append_assoc,
      List.singleton_append, hopen]
    exact hread

end Nesting

end Tree

namespace Json

/-- Values whose numbers are integers of 64 bits and whose brackets are nested at most `room`
deep. -/
inductive Readable : Nat → Json → Prop where
  | scalar {room : Nat} {value : Scalar} (h : ∀ n, value = .number n → n.Readable) :
      Readable room (.scalar value)
  | array {room : Nat} {items : List Json} (h : ∀ item ∈ items, Readable room item) :
      Readable (room + 1) (.array items)
  | object {room : Nat} {members : List (String × Json)}
      (h : ∀ member ∈ members, Readable room member.2) : Readable (room + 1) (.object members)

namespace Readable

variable {room : Nat} {json : Json}

theorem canonical (h : Readable room json) : Readable room json.canonical := by
  induction h with
  | scalar hvalue => exact .scalar hvalue
  | array _ ih =>
      rw [Json.canonical, canonicalItems_eq_map]
      exact .array (List.forall_mem_map.2 ih)
  | object _ ih =>
      rw [Json.canonical, canonicalMembers_eq_map]
      apply Readable.object
      intro member hmem
      obtain ⟨member, hmember, rfl⟩ := List.mem_map.1 (mem_of_mem_sortMembers hmem)
      exact ih member hmember

variable {layout : Layout}

/-- A value is read into place if the brackets around it leave room for its own. -/
theorem readsInto (h : Readable room json) (hlayout : layout.Blank) {outer : List Tree.Pending}
    (hroom : outer.length + room < Tree.nestingLimit) : Tree.ReadsInto layout json outer := by
  induction h generalizing outer with
  | scalar hvalue => exact Tree.readsInto_scalar layout (fun n hn => (hvalue n hn).readBack) outer
  | array _ ih =>
      apply Tree.readsInto_array hlayout (by omega)
      intro item hmem pending
      exact ih item hmem (by rw [List.length_cons]; omega)
  | object _ ih =>
      apply Tree.readsInto_object hlayout (by omega)
      intro member hmem pending
      exact ih member hmem (by rw [List.length_cons]; omega)

variable (h : Readable room json) (hroom : room < Tree.nestingLimit)
include h hroom

theorem ofText (hlayout : layout.Blank) (level : Nat) :
    ∃ tree, Tree.Holds json tree ∧ TextTree.ofText (layout.text level json) = ⟨tree, none⟩ :=
  (h.readsInto hlayout (by simpa using hroom)).ofText level

/-- A value is read back from its text, with the members of its objects in order. -/
theorem parse_text : Json.parse json.text = .ok json.canonical :=
  (h.readsInto Layout.blank_compact (by simpa using hroom)).parse_eq 0

end Readable

/-- A number that is found in its own text is read back, also where it is a floating-point
number. -/
theorem parse_text_of_readBack {n : Number} (h : n.ReadBack) :
    Json.parse (scalar (.number n)).text = .ok (.scalar (.number n)) := by
  have hvalue : ∀ m, Scalar.number n = .number m → m.ReadBack := by
    rintro m ⟨⟩
    exact h
  exact (Tree.readsInto_scalar Layout.compact hvalue []).parse_eq 0

example : (Number.float ⟨false, 0x10000000000000, -52⟩).ReadBack := ⟨3, by decide +kernel⟩

end Json

end StrongComponents
