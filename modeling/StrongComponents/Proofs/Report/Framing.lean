import StrongComponents.Proofs.Json.Lines
import StrongComponents.Proofs.Json.RoundTrip
import StrongComponents.Report.Event
import Mathlib.Data.List.Forall2

/-!
# Lines of a stream

An event is printed as a line of JSON. The text of a value holds no line feed, so the lines of a
stream are those of its events, whatever their names are (`Event.splitOn_stream`). A line is read as
the streamed form of its event, and that differs from the tagged form in one value only: the name of
the constructor is written in another style (`Event.exists_forms`). All data of an event can be
found in its line, so no two events have one line (`Event.stream_framed`).
-/

set_option autoImplicit false

namespace StrongComponents

/-- A name in lower case, with an underscore before every capital but the first character. -/
def Text.snakeCase (name : String) : String :=
  String.ofList ((name.toList.take 1).map Char.toLower ++
    (name.toList.drop 1).flatMap fun c => if c.isUpper then ['_', c.toLower] else [c])

namespace Json

/-! ## Parts of a value -/

/-- The value of a member. -/
def member? (name : String) : Json → Option Json
  | object members => members.lookup name
  | _ => none

def string? : Json → Option String
  | scalar (.string s) => some s
  | _ => none

def bool? : Json → Option Bool
  | scalar (.bool b) => some b
  | _ => none

def count? : Json → Option Nat
  | scalar (.number (.int (.ofNat n))) => some n
  | _ => none

/-! ## Changing the type -/

/-- The name of the member that says what kind of value an object is. -/
def typeField : String := "type"

/-- The members with another value for the type. -/
def withType (type : Json) (members : List (String × Json)) : List (String × Json) :=
  members.map fun member => (member.1, if member.1 = typeField then type else member.2)

theorem sortMembers_withType (type : Json) (members : List (String × Json)) :
    sortMembers (withType type members) = withType type (sortMembers members) :=
  sortMembers_map (fun name value => if name = typeField then type else value) members

theorem canonicalMembers_withType (type : Json) (members : List (String × Json)) :
    canonicalMembers (withType type members) =
      withType type.canonical (canonicalMembers members) := by
  rw [canonicalMembers_eq_map, canonicalMembers_eq_map, withType, withType, List.map_map,
    List.map_map]
  apply List.map_congr_left
  intro member _
  by_cases htype : member.1 = typeField
  · simp [htype]
  · simp [htype]

theorem canonical_withType (kind : String) (members : List (String × Json)) :
    (object (withType (ofString kind) members)).canonical =
      object (withType (ofString kind) (sortMembers (canonicalMembers members))) := by
  rw [canonical, canonicalMembers_withType, sortMembers_withType]
  rfl

theorem Readable.withType {room : Nat} {members : List (String × Json)}
    (h : Readable (room + 1) (.object members)) (kind : String) :
    Readable (room + 1) (.object (Json.withType (ofString kind) members)) := by
  cases h with
  | object hmembers =>
      apply Readable.object
      intro member hmem
      obtain ⟨member, hmember, rfl⟩ := List.mem_map.1 hmem
      by_cases htype : member.1 = typeField
      · rw [if_pos htype]
        exact .scalar nofun
      · rw [if_neg htype]
        exact hmembers member hmember

/-! ## Values that are read back -/

theorem readable_ofString (room : Nat) (s : String) : Readable room (ofString s) := .scalar nofun

theorem readable_ofBool (room : Nat) (b : Bool) : Readable room (ofBool b) := .scalar nofun

theorem readable_ofNat (room : Nat) {n : Nat} (h : n ≤ Numeral.maxWord) :
    Readable room (ofNat n) := by
  apply Readable.scalar
  rintro _ ⟨⟩
  rw [Numeral.maxWord] at h
  exact ⟨by omega, by omega⟩

end Json

/-! ## Counters -/

/-- The counts in the order of the fields. -/
def Stats.counts (s : Stats) : List Nat :=
  [s.vertices, s.edges, s.components, s.singletonComponents, s.cyclicComponents, s.largestComponent]

namespace Event

/-- The counts of an event. -/
def counts : Event → List Nat
  | phaseStarted _ => []
  | phaseFinished _ => []
  | graphLoaded vertices edges => [vertices, edges]
  | componentsComputed vertices edges components cyclicComponents =>
      [vertices, edges, components, cyclicComponents]
  | componentFound _ size _ => [size]
  | finished stats => stats.counts

/-- All counts of the event are words of 64 bits. -/
def Counted (e : Event) : Prop := ∀ n ∈ e.counts, n ≤ Numeral.maxWord

end Event

theorem Stats.readable_toJson {s : Stats} (h : ∀ n ∈ s.counts, n ≤ Numeral.maxWord) (room : Nat) :
    Json.Readable (room + 1) s.toJson := by
  simp only [counts, List.forall_mem_cons] at h
  apply Json.Readable.object
  simp [Json.readable_ofNat, h]

namespace Event

theorem Counted.readable_tagged {e : Event} (h : e.Counted) : Json.Readable 2 e.tagged := by
  cases e with
  | finished stats =>
      apply Json.Readable.object
      simp [Json.readable_ofString, Stats.readable_toJson h 0]
  | _ =>
      simp only [Counted, counts, List.forall_mem_cons] at h
      apply Json.Readable.object
      simp [Json.readable_ofString, Json.readable_ofBool, Json.readable_ofNat, h]

/-! ## The two forms -/

/-- The two forms have the same members, and the type of one is that of the other in another
style. -/
theorem exists_forms (e : Event) :
    ∃ variant members, e.tagged = .object members ∧ (members.map Prod.fst).Nodup ∧
    (Json.typeField, .ofString variant) ∈ members ∧
      e.message = .object (Json.withType (.ofString (Text.snakeCase variant)) members) := by
  -- Each form is a table of its own, so the two are compared constructor by constructor.
  cases e <;> exact ⟨_, _, rfl, by simp, List.mem_cons_self, rfl⟩

/-! ## Finding an event in its line -/

end Event

/-- The counts that are found under their names. -/
def Stats.ofJson? (json : Json) : Option Stats := do
  let count (name : String) : Option Nat := (json.member? name).bind Json.count?
  let vertices ← count "vertices"
  let edges ← count "edges"
  let components ← count "components"
  let singletonComponents ← count "singleton_components"
  let cyclicComponents ← count "cyclic_components"
  let largestComponent ← count "largest_component"
  return { vertices, edges, components, singletonComponents, cyclicComponents, largestComponent }

namespace Event

/-- The event whose streamed form has these members, in whatever order. -/
def ofMessage? (json : Json) : Option Event := do
  let string (name : String) : Option String := (json.member? name).bind Json.string?
  let count (name : String) : Option Nat := (json.member? name).bind Json.count?
  match ← string Json.typeField with
  | "phase_started" => return phaseStarted (← string "name")
  | "phase_finished" => return phaseFinished (← string "name")
  | "graph_loaded" => return graphLoaded (← count "vertices") (← count "edges")
  | "scc_computed" =>
      return componentsComputed (← count "nodes") (← count "edges") (← count "components")
        (← count "cyclic_components")
  | "component_found" =>
      return componentFound (← string "leader") (← count "size")
        (← (json.member? "cyclic").bind Json.bool?)
  | "finished" => return finished (← (json.member? "stats").bind Stats.ofJson?)
  | _ => none

/-- The event of a line. -/
def ofLine? (line : List Char) :
    Option Event := (Json.parse (String.ofList line)).toOption.bind ofMessage?

theorem ofMessage?_canonical_message (e : Event) : ofMessage? e.message.canonical = some e := by
  -- All names are given, so the sorting and the look-ups can be evaluated while the data stay
  -- variables.
  cases e <;> rfl

/-- The line of an event without the line feed after it. -/
def lineText (e : Event) : List Char := e.message.canonical.compact

theorem toList_line (e : Event) : e.line.toList = e.lineText ++ ['\n'] := by
  rw [line, Json.text, String.toList_append, String.toList_ofList]
  rfl

theorem Counted.readable_message {e : Event} (h : e.Counted) : Json.Readable 2 e.message := by
  obtain ⟨variant, members, htagged, -, -, hmessage⟩ := e.exists_forms
  have hreadable := h.readable_tagged
  rw [htagged] at hreadable
  rw [hmessage]
  exact hreadable.withType _

theorem Counted.parse_lineText {e : Event} (h : e.Counted) :
    Json.parse (String.ofList e.lineText) = .ok e.message.canonical := by
  -- The members are sorted when they are printed and once more when they are read.
  have hparse := h.readable_message.canonical.parse_text (by decide)
  rwa [Json.canonical_canonical] at hparse

theorem Counted.ofLine?_lineText {e : Event} (h : e.Counted) : ofLine? e.lineText = some e := by
  rw [ofLine?, h.parse_lineText]
  exact ofMessage?_canonical_message e

theorem Counted.line_inj {e e' : Event} (h : e.Counted) (h' : e'.Counted)
    (hline : e.line = e'.line) : e = e' := by
  have htext : e.lineText = e'.lineText := by
    apply List.append_cancel_right
    rw [← toList_line, ← toList_line, hline]
  have hfound := h'.ofLine?_lineText
  rw [← htext, h.ofLine?_lineText] at hfound
  exact Option.some.inj hfound

/-! ## Streams -/

/-- The line is that of the event: it is not empty, it is read as the members of the tagged form
with the type in another style, and the event is found in it. -/
structure Printed (e : Event) (line : List Char) : Prop where
  ne_nil : line ≠ []
  members : ∃ variant members, Json.parse e.taggedText = .ok (.object members) ∧
    members.lookup Json.typeField = some (.ofString variant) ∧
      Json.parse (String.ofList line) =
        .ok (.object (Json.withType (.ofString (Text.snakeCase variant)) members))
  event : ofLine? line = some e

theorem Counted.printed {e : Event} (h : e.Counted) : Printed e e.lineText := by
  obtain ⟨variant, members, htagged, hnodup, htype, hmessage⟩ := e.exists_forms
  refine ⟨?_, ⟨variant, Json.sortMembers (Json.canonicalMembers members), ?_, ?_, ?_⟩,
    h.ofLine?_lineText⟩
  · rw [lineText, hmessage, Json.canonical_withType]
    exact Json.Layout.text_object_ne_nil _ _ _
  · rw [taggedText, h.readable_tagged.parse_text (by decide), htagged, Json.canonical]
  · rw [Json.canonicalMembers_eq_map]
    apply Json.lookup_sortMembers_of_nodup
    · rw [List.map_map]
      exact hnodup
    · exact List.mem_map.2 ⟨_, htype, rfl⟩
  · rw [h.parse_lineText, hmessage, Json.canonical_withType]

theorem toList_stream (events : List Event) :
    (stream events).toList = (events.map lineText).flatMap (· ++ ['\n']) := by
  induction events with
  | nil => rfl
  | cons e events ih =>
      rw [stream, List.map_cons, String.join_cons, String.toList_append, toList_line, List.map_cons,
        List.flatMap_cons, ← ih]
      rfl

/-- Cut at its line feeds, a stream is one line for each event, and nothing comes after the last
line feed. -/
theorem splitOn_stream (events : List Event) :
    (stream events).toList.splitOn '\n' = events.map lineText ++ [[]] := by
  rw [toList_stream]
  apply Text.splitOn_lines
  intro line hline
  obtain ⟨e, -, rfl⟩ := List.mem_map.1 hline
  exact Json.newline_notMem_compact _

/-- Whatever is in the names of events, their stream is one line for each of them, in order. Each
line is an object whose members are those of the tagged form of the event, but for the style of the
type, and the event can be found in it. So events with one line are the same. -/
theorem stream_framed (events : List Event) (hcounted : ∀ e ∈ events, e.Counted) :
    (∃ lines, (stream events).toList.splitOn '\n' = lines ++ [[]] ∧
      List.Forall₂ Printed events lines) ∧
      ∀ e e' : Event, e.Counted → e'.Counted → e.line = e'.line → e = e' := by
  refine ⟨⟨events.map lineText, splitOn_stream events, ?_⟩, fun e e' h h' => h.line_inj h'⟩
  rw [List.forall₂_map_right_iff, List.forall₂_same]
  intro e he
  exact (hcounted e he).printed

/-- A label with a line feed, a quotation mark, a backslash, a control character and a character
outside the basic plane, and the greatest count. -/
theorem stream_framed_hard :
    ∃ events : List Event, events = [.componentFound "a\n\"\\\x01😀" 0xFFFFFFFFFFFFFFFF true,
      .phaseFinished "\n"] ∧
      (∀ e ∈ events, e.Counted) ∧ ∃ lines, (stream events).toList.splitOn '\n' = lines ++ [[]] ∧
        List.Forall₂ Printed events lines := by
  have hcounted : ∀ e ∈ [Event.componentFound "a\n\"\\\x01😀" 0xFFFFFFFFFFFFFFFF true,
      .phaseFinished "\n"], e.Counted := by
    simp [Counted, counts, Numeral.maxWord]
  exact ⟨_, rfl, hcounted, (stream_framed _ hcounted).1⟩

end Event

end StrongComponents
