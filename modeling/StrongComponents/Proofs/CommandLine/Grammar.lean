import StrongComponents.CommandLine.Command
import Mathlib.Algebra.Group.Nat.Defs
import Mathlib.Data.List.Basic
import Mathlib.Data.List.Induction
import Mathlib.Tactic.NormNum

/-!
# The grammar of command lines

Behind its verb a command line is a row of groups: a flag with the word after it, or a flag
alone. `ofArguments_grammar` says that a command line is read iff it falls into such groups,
what has to be among them, that it falls into groups in only one way, and that the command takes
from each option the value of its last group. The order of the groups therefore matters only
among the groups of one option.
-/

set_option autoImplicit false

namespace StrongComponents

/-! ## Groups -/

/-- The word writes the number in decimal digits, perhaps behind a plus sign, and the number
fits into a machine word. -/
def WritesNumber (word : String) (n : Nat) : Prop :=
  ∃ digits : List Char, (word.toList = digits ∨ word.toList = '+' :: digits) ∧ digits ≠ [] ∧
    (∀ c ∈ digits, c.isDigit = true) ∧ n = Nat.ofDigitChars 10 digits 0 ∧ n < 2 ^ 64

/-- The words of a group, and the setting that they spell for a verb. A value may look like a
flag. -/
inductive Verb.Spells (verb : Verb) : List String → Setting → Prop where
  | input {flag : String} (path : String) (hflag : flag = "--in" ∨ flag = "--input")
      (hverb : verb ≠ .sample) :
      Spells verb [flag, path] (.input path)
  | format {word : String} {format : GraphFormat}
      (hword : (word, format) ∈ [("json", .json), ("edges", .edgeList)]) (hverb : verb ≠ .sample) :
      Spells verb ["--format", word] (.format format)
  | output {flag : String} (path : String) (hflag : flag = "--out" ∨ flag = "--output")
      (hverb : verb = .compute) :
      Spells verb [flag, path] (.output path)
  | top {word : String} {n : Nat} (hword : WritesNumber word n) (hverb : verb ≠ .validate) :
      Spells verb ["--top", word] (.top n)
  | strategy {word : String} {wanted : Bool}
      (hword : (word, wanted) ∈ [("iterative", false), ("recursive", true)])
      (hverb : verb ≠ .validate) : Spells verb ["--strategy", word] (.recursion wanted)
  | maxDepth {word : String} {n : Nat} (hword : WritesNumber word n) (hverb : verb ≠ .validate) :
      Spells verb ["--max-depth", word] (.maxDepth n)
  | emitEvents (hverb : verb ≠ .validate) : Spells verb ["--emit-events"] .emitEvents

/-- The word for a verb. -/
def Verb.word : Verb → String
  | compute => "compute"
  | validate => "validate"
  | sample => "sample"

/-- The command line consists of the name of the program, the word `scc`, the verb, and groups for
the verb. -/
structure Grouped (arguments : List String) (verb : Verb) (groups : List (List String × Setting)) :
    Prop where
  words : ∃ program, arguments = program :: "scc" :: verb.word :: (groups.map Prod.fst).flatten
  spells : ∀ group ∈ groups, verb.Spells group.1 group.2

section Words

theorem number?_eq_some_iff {word : String} {n : Nat} :
    Flag.number? word = some n ↔ WritesNumber word n := by
  have hread : ∀ digits : List Char,
      (if digits ≠ [] ∧ digits.all Char.isDigit ∧ Nat.ofDigitChars 10 digits 0 ≤ Flag.maxNumber then
        some (Nat.ofDigitChars 10 digits 0) else none) = some n ↔
      digits ≠ [] ∧ (∀ c ∈ digits, c.isDigit = true) ∧ n = Nat.ofDigitChars 10 digits 0 ∧
        n < 2 ^ 64 := by
    intro digits
    grind [Flag.maxNumber]
  rw [Flag.number?, hread, WritesNumber]
  generalize word.toList = chars
  split
  next digits =>
    constructor
    · intro h
      exact ⟨digits, .inr rfl, h⟩
    · rintro ⟨found, rfl | hfound, h⟩
      · -- The plus sign would have to be one of the digits.
        exact absurd (h.2.1 '+' List.mem_cons_self) (by decide)
      · cases hfound
        exact h
  next hplus =>
    constructor
    · intro h
      exact ⟨chars, .inl rfl, h⟩
    · rintro ⟨found, rfl | hfound, h⟩
      · exact h
      · exact absurd hfound (hplus found)

theorem Verb.ofWord?_eq_some_iff {word : String} {verb : Verb} :
    Verb.ofWord? word = some verb ↔ word = verb.word := by
  cases verb <;> grind [Verb.ofWord?, Verb.word]

theorem GraphFormat.ofWord?_eq_some_iff {word : String} {format : GraphFormat} :
    GraphFormat.ofWord? word = some format ↔
      (word, format) ∈ [("json", .json), ("edges", .edgeList)] := by
  cases format <;> grind [GraphFormat.ofWord?]

/-- The spellings of a flag. -/
def Flag.spellings : Flag → List String
  | input => ["--in", "--input"]
  | format => ["--format"]
  | output => ["--out", "--output"]
  | top => ["--top"]
  | strategy => ["--strategy"]
  | maxDepth => ["--max-depth"]
  | emitEvents => ["--emit-events"]

theorem Flag.ofWord?_eq_some_iff {word : String} {flag : Flag} :
    Flag.ofWord? word = some flag ↔ word ∈ flag.spellings := by
  cases flag <;> grind [Flag.ofWord?, Flag.spellings]

theorem Verb.flag_eq_ok_iff {verb : Verb} {word : String} {flag : Flag} :
    verb.flag word = .ok flag ↔ word ∈ flag.spellings ∧ flag.isFor verb = true := by
  rw [← Flag.ofWord?_eq_some_iff, Verb.flag]
  cases Flag.ofWord? word with
  | none => simp
  | some found =>
      by_cases h : found.isFor verb = true <;> grind

theorem numberSetting_eq_ok_iff {flag : Flag} {make : Nat → Setting} {value : String}
    {setting : Setting} :
    flag.numberSetting make value = .ok setting ↔ ∃ n, WritesNumber value n ∧ make n = setting := by
  rw [Flag.numberSetting]
  simp only [← number?_eq_some_iff]
  cases Flag.number? value <;> simp

theorem formatSetting_eq_ok_iff {value : String} {setting : Setting} :
    Flag.format.setting value = .ok setting ↔
    ∃ format, (value, format) ∈ [("json", .json), ("edges", .edgeList)] ∧
      Setting.format format = setting := by
  rw [Flag.setting]
  simp only [← GraphFormat.ofWord?_eq_some_iff]
  cases GraphFormat.ofWord? value <;> simp

theorem strategySetting_eq_ok_iff {value : String} {setting : Setting} :
    Flag.strategy.setting value = .ok setting ↔
    ∃ wanted, (value, wanted) ∈ [("iterative", false), ("recursive", true)] ∧
      Setting.recursion wanted = setting := by
  grind [Flag.setting]

end Words

namespace Verb

variable {verb : Verb} {words rest : List String} {setting : Setting}

/-- A group is what the reading of a flag, and of its value if it has one, accepts. -/
theorem spells_iff : verb.Spells words setting ↔
    (words = ["--emit-events"] ∧ setting = .emitEvents ∧
      verb.flag "--emit-events" = .ok .emitEvents) ∨
      ∃ flag word value, words = [word, value] ∧ verb.flag word = .ok flag ∧ flag ≠ .emitEvents ∧
        flag.setting value = .ok setting := by
  simp only [flag_eq_ok_iff]
  constructor
  -- Each kind of group belongs to one flag; the spelling and the verbs that know it come
  -- from the tables of the flag.
  · rintro (⟨path, hflag, hverb⟩ | ⟨hword, hverb⟩ | ⟨path, hflag, hverb⟩ | ⟨hword, hverb⟩ |
      ⟨hword, hverb⟩ | ⟨hword, hverb⟩ | hverb)
    · exact .inr ⟨.input, _, _, rfl, by simpa [Flag.spellings, Flag.isFor] using ⟨hflag, hverb⟩,
        by decide, rfl⟩
    · exact .inr ⟨.format, _, _, rfl, by simpa [Flag.spellings, Flag.isFor] using hverb, by decide,
        formatSetting_eq_ok_iff.2 ⟨_, hword, rfl⟩⟩
    · exact .inr ⟨.output, _, _, rfl, by simpa [Flag.spellings, Flag.isFor] using ⟨hflag, hverb⟩,
        by decide, rfl⟩
    · exact .inr ⟨.top, _, _, rfl, by simpa [Flag.spellings, Flag.isFor] using hverb, by decide,
        numberSetting_eq_ok_iff.2 ⟨_, hword, rfl⟩⟩
    · exact .inr ⟨.strategy, _, _, rfl, by simpa [Flag.spellings, Flag.isFor] using hverb,
        by decide, strategySetting_eq_ok_iff.2 ⟨_, hword, rfl⟩⟩
    · exact .inr ⟨.maxDepth, _, _, rfl, by simpa [Flag.spellings, Flag.isFor] using hverb,
        by decide, numberSetting_eq_ok_iff.2 ⟨_, hword, rfl⟩⟩
    · exact .inl ⟨rfl, rfl, by simpa [Flag.spellings, Flag.isFor] using hverb⟩
  · rintro (⟨rfl, rfl, -, hverb⟩ | ⟨flag, word, value, rfl, ⟨hspelling, hverb⟩, hne, hsetting⟩)
    · exact .emitEvents (by simpa [Flag.isFor] using hverb)
    cases flag with
    | input =>
        cases hsetting
        exact .input value (by simpa [Flag.spellings] using hspelling)
          (by simpa [Flag.isFor] using hverb)
    | format =>
        obtain rfl := List.mem_singleton.1 hspelling
        obtain ⟨format, hword, rfl⟩ := formatSetting_eq_ok_iff.1 hsetting
        exact .format hword (by simpa [Flag.isFor] using hverb)
    | output =>
        cases hsetting
        exact .output value (by simpa [Flag.spellings] using hspelling)
          (by simpa [Flag.isFor] using hverb)
    | top =>
        obtain rfl := List.mem_singleton.1 hspelling
        obtain ⟨n, hword, rfl⟩ := numberSetting_eq_ok_iff.1 hsetting
        exact .top hword (by simpa [Flag.isFor] using hverb)
    | strategy =>
        obtain rfl := List.mem_singleton.1 hspelling
        obtain ⟨wanted, hword, rfl⟩ := strategySetting_eq_ok_iff.1 hsetting
        exact .strategy hword (by simpa [Flag.isFor] using hverb)
    | maxDepth =>
        obtain rfl := List.mem_singleton.1 hspelling
        obtain ⟨n, hword, rfl⟩ := numberSetting_eq_ok_iff.1 hsetting
        exact .maxDepth hword (by simpa [Flag.isFor] using hverb)
    | emitEvents => exact absurd rfl hne

/-! ## Reading groups -/

/-- One group is read as its setting, whatever follows it. -/
theorem settings_append (h : verb.Spells words setting) (rest : List String) :
    verb.settings (words ++ rest) = (verb.settings rest).map (setting :: ·) := by
  rcases spells_iff.1 h with ⟨rfl, rfl, hflag⟩ | ⟨flag, word, value, rfl, hflag, hne, hsetting⟩
  · rw [List.singleton_append, settings, hflag]
  · rw [List.cons_append, List.singleton_append, settings, hflag]
    cases flag with
    | emitEvents => exact absurd rfl hne
    | _ =>
        dsimp only
        rw [hsetting]

theorem settings_flatten {groups : List (List String × Setting)}
    (h : ∀ group ∈ groups, verb.Spells group.1 group.2) :
    verb.settings (groups.map Prod.fst).flatten = .ok (groups.map Prod.snd) := by
  induction groups with
  | nil => rfl
  | cons group groups ih =>
      rw [List.map_cons, List.flatten_cons, settings_append (h group List.mem_cons_self),
        ih fun other hother => h other (List.mem_cons_of_mem _ hother)]
      rfl

/-- Words that are read begin with a group, and the words behind it are read. -/
theorem settings_cases {settings : List Setting} (h : verb.settings words = .ok settings) :
    words = [] ∧ settings = [] ∨ ∃ group rest setting later, words = group ++ rest ∧
      settings = setting :: later ∧
      verb.Spells group setting ∧ verb.settings rest = .ok later := by
  cases words with
  | nil =>
      cases h
      exact .inl ⟨rfl, rfl⟩
  | cons word words =>
      rw [Verb.settings] at h
      split at h
      next => cases h
      next hflag =>
        obtain ⟨later, hlater, rfl⟩ := map_eq_ok_iff.1 h
        obtain rfl : word = "--emit-events" := List.mem_singleton.1 (flag_eq_ok_iff.1 hflag).1
        exact .inr ⟨[_], words, .emitEvents, later, rfl, rfl, spells_iff.2 (.inl ⟨rfl, rfl, hflag⟩),
          hlater⟩
      next flag hne hflag =>
        cases words with
        | nil => cases h
        | cons value rest =>
            cases hsetting : flag.setting value with
            | error e =>
                simp only [hsetting] at h
                cases h
            | ok setting =>
                simp only [hsetting] at h
                obtain ⟨later, hlater, rfl⟩ := map_eq_ok_iff.1 h
                have hspells : verb.Spells [word, value] setting :=
                  spells_iff.2 (.inr ⟨flag, word, value, rfl, hflag, hne, hsetting⟩)
                exact .inr ⟨_, rest, setting, later, rfl, rfl, hspells, hlater⟩

theorem Spells.length_pos (h : verb.Spells words setting) : 0 < words.length := by
  cases h <;> exact Nat.succ_pos _

theorem exists_groups {settings : List Setting} :
    ∀ {words : List String}, verb.settings words = .ok settings →
    ∃ groups : List (List String × Setting), words = (groups.map Prod.fst).flatten ∧
      ∀ group ∈ groups, verb.Spells group.1 group.2 := by
  induction settings with
  | nil =>
      intro words h
      rcases settings_cases h with ⟨rfl, -⟩ | ⟨_, _, _, _, -, hcons, -⟩
      · exact ⟨[], rfl, fun _ hgroup => absurd hgroup List.not_mem_nil⟩
      · cases hcons
  | cons setting settings ih =>
      intro words h
      rcases settings_cases h with ⟨-, hnil⟩ |
        ⟨group, rest, setting, later, rfl, hcons, hspells, hlater⟩
      · cases hnil
      · cases hcons
        obtain ⟨groups, rfl, hgroups⟩ := ih hlater
        exact ⟨(group, setting) :: groups, rfl, List.forall_mem_cons.2 ⟨hspells, hgroups⟩⟩

/-- The first word of a group tells how many words it has. -/
theorem Spells.length_eq (h : verb.Spells words setting) :
    words.length = if words.head? = some "--emit-events" then 1 else 2 := by
  cases h <;> grind

/-- Where a group ends does not depend on what follows it. -/
theorem Spells.append_inj {other later : List String} {found : Setting}
    (h : verb.Spells words setting) (hother : verb.Spells other found)
    (heq : words ++ rest = other ++ later) :
    words = other ∧ setting = found ∧ rest = later := by
  have hhead : words.head? = other.head? := by
    have := congrArg List.head? heq
    rwa [List.head?_append_of_ne_nil _ (List.ne_nil_of_length_pos h.length_pos),
      List.head?_append_of_ne_nil _ (List.ne_nil_of_length_pos hother.length_pos)] at this
  obtain ⟨rfl, hrest⟩ := List.append_inj heq (by rw [h.length_eq, hother.length_eq, hhead])
  -- The same words are not read as two settings.
  have hread := (settings_append h []).symm.trans (settings_append hother [])
  cases hread
  exact ⟨rfl, rfl, hrest⟩

theorem eq_nil_of_flatten {groups : List (List String × Setting)}
    (h : ∀ group ∈ groups, verb.Spells group.1 group.2)
    (hnil : (groups.map Prod.fst).flatten = []) : groups = [] := by
  cases groups with
  | nil => rfl
  | cons group groups =>
      have hpos := (h group List.mem_cons_self).length_pos
      rw [List.map_cons, List.flatten_cons, List.append_eq_nil_iff] at hnil
      exact absurd hnil.1 (List.ne_nil_of_length_pos hpos)

/-- Words fall into groups in one way at most. -/
theorem groups_unique {groups : List (List String × Setting)} :
    ∀ {others : List (List String × Setting)},
    (∀ group ∈ groups, verb.Spells group.1 group.2) →
      (∀ group ∈ others, verb.Spells group.1 group.2) →
      (groups.map Prod.fst).flatten = (others.map Prod.fst).flatten → groups = others := by
  induction groups with
  | nil =>
      intro others _ hothers heq
      exact (eq_nil_of_flatten hothers heq.symm).symm
  | cons group groups ih =>
      intro others hgroups hothers heq
      cases others with
      | nil => exact eq_nil_of_flatten hgroups heq
      | cons other others =>
          have hgroup := hgroups group List.mem_cons_self
          obtain ⟨hwords, hsetting, hrest⟩ :=
            hgroup.append_inj (hothers other List.mem_cons_self) heq
          rw [Prod.ext hwords hsetting,
            ih (List.forall_mem_cons.1 hgroups).2 (List.forall_mem_cons.1 hothers).2 hrest]

end Verb

/-! ## The last group of an option -/

/-- The option that a setting is for. -/
def Setting.flag : Setting → Flag
  | input _ => .input
  | format _ => .format
  | output _ => .output
  | top _ => .top
  | recursion _ => .strategy
  | maxDepth _ => .maxDepth
  | emitEvents => .emitEvents

/-- The last setting for an option. -/
def lastOf (flag : Flag) (settings : List Setting) : Option Setting :=
  (settings.filter fun setting => setting.flag = flag).getLast?

section Last

variable {flag : Flag} {settings : List Setting} {s : Settings}

theorem lastOf_concat (flag : Flag) (settings : List Setting) (setting : Setting) :
    lastOf flag (settings ++ [setting]) = if setting.flag = flag then some setting
      else lastOf flag settings := by
  by_cases h : setting.flag = flag <;> simp [lastOf, List.filter_append, h]

theorem mem_of_lastOf {setting : Setting} (h : lastOf flag settings = some setting) :
    setting ∈ settings :=
  (List.mem_filter.1 (List.mem_of_getLast? h)).1

theorem lastOf_ne_none {setting : Setting} (h : setting ∈ settings) :
    lastOf setting.flag settings ≠ none := by
  rw [lastOf, Ne, List.getLast?_eq_none_iff]
  exact List.ne_nil_of_mem (List.mem_filter.2 ⟨h, by simp⟩)

/-- Each field holds the last setting for its option. -/
structure Settings.Last (s : Settings) (settings : List Setting) : Prop where
  input : lastOf .input settings = s.input.map .input
  format : lastOf .format settings = s.format.map .format
  output : lastOf .output settings = s.output.map .output
  top : lastOf .top settings = s.top.map .top
  recursion : lastOf .strategy settings = some (.recursion true) ↔ s.recursion = true
  maxDepth : lastOf .maxDepth settings = s.maxDepth.map .maxDepth
  emitEvents : lastOf .emitEvents settings = some .emitEvents ↔ s.emitEvents = true

theorem Settings.Last.apply (h : s.Last settings) (setting : Setting) :
    (s.apply setting).Last (settings ++ [setting]) := by
  -- A setting is the last one for its own option and leaves the last ones for the others.
  cases setting <;> constructor <;>
    simp [lastOf_concat, Setting.flag, Settings.apply, h.input, h.format, h.output, h.top,
      h.recursion, h.maxDepth, h.emitEvents]

theorem Settings.last_ofList (settings : List Setting) :
    (Settings.ofList settings).Last settings := by
  induction settings using List.reverseRecOn with
  | nil => constructor <;> simp [lastOf, Settings.ofList, Settings.initial]
  | append_singleton settings setting ih =>
      rw [Settings.ofList, List.foldl_append]
      exact ih.apply setting

/-- The last settings are all that is kept. -/
theorem Settings.Last.unique {other : Settings} {others : List Setting} (h : s.Last settings)
    (hother : other.Last others) (heq : ∀ flag, lastOf flag settings = lastOf flag others) :
    s = other := by
  have hinput :=
    Option.map_injective (fun _ _ => Setting.input.inj)
      (h.input.symm.trans ((heq _).trans hother.input))
  have hformat :=
    Option.map_injective (fun _ _ => Setting.format.inj)
      (h.format.symm.trans ((heq _).trans hother.format))
  have houtput :=
    Option.map_injective (fun _ _ => Setting.output.inj)
      (h.output.symm.trans ((heq _).trans hother.output))
  have htop :=
    Option.map_injective (fun _ _ => Setting.top.inj) (h.top.symm.trans ((heq _).trans hother.top))
  have hdepth := Option.map_injective (fun _ _ => Setting.maxDepth.inj)
    (h.maxDepth.symm.trans ((heq _).trans hother.maxDepth))
  -- The two options that are on or off are known by when they are on.
  have hrecursion : s.recursion = other.recursion := by
    rw [Bool.eq_iff_iff, ← h.recursion, ← hother.recursion, heq]
  have hevents : s.emitEvents = other.emitEvents := by
    rw [Bool.eq_iff_iff, ← h.emitEvents, ← hother.emitEvents, heq]
  cases s
  cases other
  rw [Settings.mk.injEq]
  exact ⟨hinput, hformat, houtput, htop, hrecursion, hdepth, hevents⟩

/-- An option with values has one iff it is set somewhere. -/
theorem isSome_iff_exists_mem {α : Type} {make : α → Setting} {value : Option α}
    (hlast : lastOf flag settings = value.map make) (hflag : ∀ a, (make a).flag = flag) :
    value.isSome = true ↔ ∃ a, make a ∈ settings := by
  constructor
  · intro h
    obtain ⟨a, rfl⟩ := Option.isSome_iff_exists.1 h
    exact ⟨a, mem_of_lastOf hlast⟩
  · rintro ⟨a, ha⟩
    have hne := lastOf_ne_none ha
    rw [hflag a, hlast] at hne
    simpa [Option.isSome_iff_ne_none] using hne

theorem lastOf_emitEvents :
    lastOf .emitEvents settings = some .emitEvents ↔ Setting.emitEvents ∈ settings := by
  refine ⟨mem_of_lastOf, ?_⟩
  intro h
  obtain ⟨setting, hlast⟩ := Option.ne_none_iff_exists'.1 (lastOf_ne_none h)
  have hflag := (List.mem_filter.1 (List.mem_of_getLast? hlast)).2
  cases setting with
  | emitEvents => exact hlast
  | _ => simp [Setting.flag] at hflag

end Last

/-! ## Commands -/

/-- The path ends with `.json`, in any mixture of cases. -/
def NamesJson (path : String) : Prop :=
  ∃ stem ending : List Char, path.toList = stem ++ ending ∧ ending.map Char.toLower = ".json".toList

/-- The source has the last path, and the last format or else the one that the path names. -/
structure IsSource (settings : List Setting) (source : Source) : Prop where
  path : lastOf .input settings = some (.input source.path)
  given : ∀ format, lastOf .format settings = some (.format format) → source.format = format
  byPath : lastOf .format settings = none → (source.format = .json ↔ NamesJson source.path)

/-- The options have the last values. Nested calls are limited to the last depth, or else to the
usual one. -/
structure IsOptions (settings : List Setting) (options : ComputeOptions) : Prop where
  top : ∀ n, options.top = some n ↔ lastOf .top settings = some (.top n)
  strategy : ∀ depth, options.strategy = .recursive depth ↔
    lastOf .strategy settings = some (.recursion true) ∧
    (lastOf .maxDepth settings = some (.maxDepth depth) ∨
      lastOf .maxDepth settings = none ∧ depth = Strategy.defaultMaxDepth)
  emitEvents : options.emitEvents = true ↔ Setting.emitEvents ∈ settings

/-- The command of a verb has the last values of its options. -/
inductive IsCommand (settings : List Setting) : Verb → Command → Prop where
  | compute {source : Source} {output : Option String} {options : ComputeOptions}
      (hsource : IsSource settings source)
      (houtput : ∀ path, output = some path ↔ lastOf .output settings = some (.output path))
      (hoptions : IsOptions settings options) :
      IsCommand settings .compute (.compute source output options)
  | validate {source : Source} (hsource : IsSource settings source) :
      IsCommand settings .validate (.validate source)
  | sample {options : ComputeOptions} (hoptions : IsOptions settings options) :
      IsCommand settings .sample (.sample options)

theorem ofPath_eq_json_iff (path : String) : GraphFormat.ofPath path = .json ↔ NamesJson path := by
  have hsuffix : GraphFormat.ofPath path = .json ↔
      ".json".toList <:+ path.toList.map Char.toLower := by
    rw [GraphFormat.ofPath, ← List.isSuffixOf_iff_suffix]
    split <;> simp_all
  rw [hsuffix]
  constructor
  · rintro ⟨front, hfront⟩
    obtain ⟨stem, ending, hpath, -, hending⟩ := List.map_eq_append_iff.1 hfront.symm
    exact ⟨stem, ending, hpath, hending⟩
  · rintro ⟨stem, ending, hpath, hending⟩
    exact ⟨stem.map Char.toLower, by rw [hpath, List.map_append, hending]⟩

section Values

variable {settings : List Setting} {s : Settings} {verb : Verb}

theorem exists_source_iff : (∃ source, s.source = .ok source) ↔ s.input.isSome = true := by
  rw [Settings.source]
  cases s.input <;> simp

theorem exists_computeOptions_iff :
    (∃ options, s.computeOptions = .ok options) ↔
      (s.maxDepth.isSome = true → s.recursion = true) := by
  rw [Settings.computeOptions]
  split
  next h => simp [h]
  next h => simpa using h

theorem isSource_of_source (h : s.Last settings) {source : Source}
    (hsource : s.source = .ok source) :
    IsSource settings source := by
  rw [Settings.source] at hsource
  cases hinput : s.input with
  | none =>
      rw [hinput] at hsource
      cases hsource
  | some path =>
      rw [hinput] at hsource
      cases hsource
      refine ⟨by rw [h.input, hinput]; rfl, ?_, ?_⟩
      · intro format hformat
        rw [h.format, Option.map_eq_some_iff] at hformat
        obtain ⟨_, hgiven, ⟨⟩⟩ := hformat
        simp [hgiven]
      · intro hformat
        rw [h.format, Option.map_eq_none_iff] at hformat
        simpa [hformat] using ofPath_eq_json_iff path

theorem isOptions_of_computeOptions (h : s.Last settings) {options : ComputeOptions}
    (hoptions : s.computeOptions = .ok options) : IsOptions settings options := by
  rw [Settings.computeOptions] at hoptions
  split at hoptions
  next => cases hoptions
  next =>
    cases hoptions
    refine ⟨?_, ?_, ?_⟩
    · intro n
      simp [h.top]
    · intro depth
      rw [h.recursion, h.maxDepth]
      cases s.recursion <;> cases s.maxDepth <;> simp [eq_comm]
    · rw [← lastOf_emitEvents, h.emitEvents]

/-- A verb succeeds iff the parts of its command are there. -/
theorem command_eq_ok_iff {command : Command} : s.command verb = .ok command ↔
    (verb = .compute ∧ ∃ source options, s.source = .ok source ∧ s.computeOptions = .ok options ∧
      .compute source s.output options = command) ∨
    (verb = .validate ∧ ∃ source, s.source = .ok source ∧ .validate source = command) ∨
    (verb = .sample ∧ ∃ options, s.computeOptions = .ok options ∧ .sample options = command) := by
  cases verb <;> simp [Settings.command, bind_eq_ok_iff, pure, Except.pure]

theorem isCommand_of_command (h : s.Last settings) {command : Command}
    (hcommand : s.command verb = .ok command) :
    IsCommand settings verb command := by
  rcases command_eq_ok_iff.1 hcommand with ⟨rfl, source, options, hsource, hoptions, rfl⟩ |
    ⟨rfl, source, hsource, rfl⟩ | ⟨rfl, options, hoptions, rfl⟩
  · exact .compute (isSource_of_source h hsource) (fun path => by simp [h.output])
      (isOptions_of_computeOptions h hoptions)
  · exact .validate (isSource_of_source h hsource)
  · exact .sample (isOptions_of_computeOptions h hoptions)

theorem exists_command_iff : (∃ command, s.command verb = .ok command) ↔
    (verb ≠ .sample → s.input.isSome = true) ∧
      (verb ≠ .validate → s.maxDepth.isSome = true → s.recursion = true) := by
  rw [← exists_source_iff, ← exists_computeOptions_iff]
  simp only [command_eq_ok_iff]
  cases verb <;> simp

end Values

/-! ## Command lines -/

section Arguments

variable {arguments : List String} {verb : Verb} {groups : List (List String × Setting)}

theorem ofArguments_of_grouped (h : Grouped arguments verb groups) :
    Command.ofArguments arguments = (Settings.ofList (groups.map Prod.snd)).command verb := by
  obtain ⟨program, rfl⟩ := h.words
  rw [Command.ofArguments, Verb.ofWord?_eq_some_iff.2 rfl]
  dsimp only
  rw [Verb.settings_flatten h.spells]
  rfl

theorem exists_grouped {command : Command} (h : Command.ofArguments arguments = .ok command) :
    ∃ verb groups, Grouped arguments verb groups := by
  rw [Command.ofArguments.eq_def] at h
  split at h
  next program word rest =>
    split at h
    next => cases h
    next verb hverb =>
      obtain ⟨settings, hsettings, -⟩ := bind_eq_ok_iff.1 h
      obtain ⟨groups, rfl, hspells⟩ := Verb.exists_groups hsettings
      obtain rfl := Verb.ofWord?_eq_some_iff.1 hverb
      exact ⟨verb, groups, ⟨program, rfl⟩, hspells⟩
  next => cases h

theorem Grouped.unique {other : Verb} {others : List (List String × Setting)}
    (h : Grouped arguments verb groups) (hother : Grouped arguments other others) :
    other = verb ∧ others = groups := by
  obtain ⟨program, rfl⟩ := h.words
  obtain ⟨_, heq⟩ := hother.words
  simp only [List.cons.injEq, true_and] at heq
  obtain ⟨-, hword, hwords⟩ := heq
  obtain rfl : other = verb := by
    have hread := Verb.ofWord?_eq_some_iff.2 hword
    rw [Verb.ofWord?_eq_some_iff.2 rfl] at hread
    exact (Option.some.inj hread).symm
  exact ⟨rfl, (Verb.groups_unique h.spells hother.spells hwords).symm⟩

/-- Only nested calls have a depth, and `validate` makes none. -/
theorem Grouped.ne_validate (h : Grouped arguments verb groups) {depth : Nat}
    (hdepth : Setting.maxDepth depth ∈ groups.map Prod.snd) : verb ≠ .validate := by
  obtain ⟨group, hgroup, hsetting⟩ := List.mem_map.1 hdepth
  have hspells := h.spells group hgroup
  rw [hsetting] at hspells
  generalize group.1 = words at hspells
  cases hspells
  assumption

theorem Grouped.exists_command_iff (h : Grouped arguments verb groups) :
    (∃ command, Command.ofArguments arguments = .ok command) ↔
      (verb ≠ .sample → ∃ path, Setting.input path ∈ groups.map Prod.snd) ∧
        ((∃ depth, Setting.maxDepth depth ∈ groups.map Prod.snd) →
          lastOf .strategy (groups.map Prod.snd) = some (.recursion true)) := by
  have hlast := Settings.last_ofList (groups.map Prod.snd)
  rw [ofArguments_of_grouped h, StrongComponents.exists_command_iff, hlast.recursion,
    isSome_iff_exists_mem hlast.input fun _ => rfl,
    isSome_iff_exists_mem hlast.maxDepth fun _ => rfl]
  -- The verb that never looks at the depth has no group that sets one.
  refine and_congr_right fun _ => ⟨?_, fun hrecursion _ => hrecursion⟩
  rintro hrecursion ⟨depth, hdepth⟩
  exact hrecursion (h.ne_validate hdepth) ⟨depth, hdepth⟩

/-- A command line is read iff it falls into groups for its verb, an input is among them where the
verb needs one, and a depth only if the last strategy is the recursive one. It falls into groups in
one way only, each option of the command has the value of its last group, and groups that have the
same settings in the same order for each option make the same command or error. -/
theorem ofArguments_grammar (arguments : List String) :
    ((∃ command, Command.ofArguments arguments = .ok command) ↔
      ∃ verb groups, Grouped arguments verb groups ∧
      (verb ≠ .sample → ∃ path, Setting.input path ∈ groups.map Prod.snd) ∧
      ((∃ depth, Setting.maxDepth depth ∈ groups.map Prod.snd) →
        lastOf .strategy (groups.map Prod.snd) = some (.recursion true))) ∧
    ∀ verb groups, Grouped arguments verb groups →
      (∀ verb' groups', Grouped arguments verb' groups' → verb' = verb ∧ groups' = groups) ∧
      (∀ command, Command.ofArguments arguments = .ok command →
        IsCommand (groups.map Prod.snd) verb command) ∧
      ∀ arguments' groups', Grouped arguments' verb groups' →
        (∀ flag, (groups'.map Prod.snd).filter (·.flag = flag) =
          (groups.map Prod.snd).filter (·.flag = flag)) →
          Command.ofArguments arguments' = Command.ofArguments arguments := by
  constructor
  · constructor
    · rintro ⟨command, hcommand⟩
      obtain ⟨verb, groups, hgrouped⟩ := exists_grouped hcommand
      exact ⟨verb, groups, hgrouped, hgrouped.exists_command_iff.1 ⟨command, hcommand⟩⟩
    · rintro ⟨verb, groups, hgrouped, hgiven⟩
      exact hgrouped.exists_command_iff.2 hgiven
  · intro verb groups hgrouped
    have hlast := Settings.last_ofList (groups.map Prod.snd)
    refine ⟨fun _ _ => hgrouped.unique, ?_, ?_⟩
    · intro command hcommand
      rw [ofArguments_of_grouped hgrouped] at hcommand
      exact isCommand_of_command hlast hcommand
    · intro arguments' groups' hgrouped' hfilter
      have hlast' := Settings.last_ofList (groups'.map Prod.snd)
      rw [ofArguments_of_grouped hgrouped, ofArguments_of_grouped hgrouped',
        hlast'.unique hlast fun flag => congrArg List.getLast? (hfilter flag)]

/-- An input that looks like a flag is replaced by a later one, and the depth may
stand before the strategy. -/
theorem ofArguments_grammar_replaced_input :
    Command.ofArguments
        ["p", "scc", "compute", "--input", "--top", "--max-depth", "+5", "--in", "a.JSON",
          "--strategy", "recursive"] =
      Command.ofArguments
        ["p", "scc", "compute", "--strategy", "recursive", "--input", "--top", "--in", "a.JSON",
          "--max-depth", "+5"] ∧
    ∃ source output options, Command.ofArguments
        ["p", "scc", "compute", "--strategy", "recursive", "--input", "--top", "--in", "a.JSON",
          "--max-depth", "+5"] =
      .ok (.compute source output options) ∧ source.path = "a.JSON" ∧
        options.strategy = .recursive 5 := by
  have hfirst : Verb.compute.Spells ["--input", "--top"] (.input "--top") :=
    .input _ (.inr rfl) (by decide)
  have hsecond : Verb.compute.Spells ["--in", "a.JSON"] (.input "a.JSON") :=
    .input _ (.inl rfl) (by decide)
  have hdepth : Verb.compute.Spells ["--max-depth", "+5"] (.maxDepth 5) :=
    .maxDepth ⟨['5'], .inr rfl, by decide, List.forall_mem_singleton.2 rfl, rfl, by norm_num⟩
      (by decide)
  have hstrategy : Verb.compute.Spells ["--strategy", "recursive"] (.recursion true) :=
    .strategy (by decide) (by decide)
  have hline : Grouped
      ["p", "scc", "compute", "--input", "--top", "--max-depth", "+5", "--in", "a.JSON",
        "--strategy", "recursive"] .compute
      [(["--input", "--top"], .input "--top"), (["--max-depth", "+5"], .maxDepth 5),
        (["--in", "a.JSON"], .input "a.JSON"), (["--strategy", "recursive"], .recursion true)] :=
    ⟨⟨"p", rfl⟩, by simp [hfirst, hsecond, hdepth, hstrategy]⟩
  have hpermuted : Grouped
      ["p", "scc", "compute", "--strategy", "recursive", "--input", "--top", "--in", "a.JSON",
        "--max-depth", "+5"] .compute
      [(["--strategy", "recursive"], .recursion true), (["--input", "--top"], .input "--top"),
        (["--in", "a.JSON"], .input "a.JSON"), (["--max-depth", "+5"], .maxDepth 5)] :=
    ⟨⟨"p", rfl⟩, by simp [hfirst, hsecond, hdepth, hstrategy]⟩
  obtain ⟨hread, hgroups⟩ := ofArguments_grammar _
  obtain ⟨-, hmeaning, hsame⟩ := hgroups _ _ hpermuted
  refine ⟨hsame _ _ hline (by intro flag; cases flag <;> decide), ?_⟩
  obtain ⟨command, hcommand⟩ :=
    hread.2 ⟨_, _, hpermuted, fun _ => ⟨"a.JSON", by decide⟩, fun _ => by decide⟩
  rw [hcommand]
  cases hmeaning command hcommand with
  | compute hsource _ hoptions =>
      refine ⟨_, _, _, rfl, ?_, (hoptions.strategy 5).2 ⟨by decide, .inl (by decide)⟩⟩
      exact (Setting.input.inj (Option.some.inj hsource.path)).symm

end Arguments

end StrongComponents
