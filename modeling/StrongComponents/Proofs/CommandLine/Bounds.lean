import StrongComponents.CommandLine.Run
import StrongComponents.Proofs.CommandLine.Files
import StrongComponents.Proofs.Components.DepthLimit
import StrongComponents.Proofs.Labeled.Description
import StrongComponents.Proofs.Labeled.EdgeList
import StrongComponents.Proofs.Report.Description
import StrongComponents.Proofs.Traversal.Scope

/-!
# No look-up goes astray

A malformed description is refused when the graph is made from it. What is made is consistent, so on
the way from there to the report every look-up finds its entry: the worklist always succeeds, and
nested calls fail for want of depth or of stack only. Whatever a command line and the files hold, a
run fails for a foreseen cause (`failures_foreseen`).
-/

set_option autoImplicit false

namespace StrongComponents

/-! ## Results and the ways they end -/

/-- A result is as `success` wants it, or fails as `failure` allows. -/
structure Ends {ε α : Type} (success : α → Prop) (failure : ε → Prop) (result : Except ε α) :
    Prop where
  ok : ∀ a, result = .ok a → success a
  error : ∀ e, result = .error e → failure e

namespace Ends

variable {ε ε' α β : Type} {success : α → Prop} {success' : β → Prop} {failure : ε → Prop}
  {failure' : ε' → Prop} {result : Except ε α}

theorem of_ok {a : α} (ha : success a) : Ends success failure (.ok a) where
  ok := by
    rintro _ ⟨⟩
    exact ha
  error := nofun

theorem of_error {e : ε} (he : failure e) : Ends success failure (.error e) where
  ok := nofun
  error := by
    rintro _ ⟨⟩
    exact he

/-- The second of two operations only has to deal with what the first one gives. -/
theorem bind {next : α → Except ε β} (h : Ends success failure result)
    (hnext : ∀ a, success a → Ends success' failure (next a)) :
    Ends success' failure (result >>= next) := by
  cases result with
  | ok a => exact hnext a (h.ok a rfl)
  | error e => exact of_error (h.error e rfl)

theorem map {f : α → β} (h : Ends success failure result) (hf : ∀ a, success a → success' (f a)) :
    Ends success' failure (result.map f) := by
  cases result with
  | ok a => exact of_ok (hf a (h.ok a rfl))
  | error e => exact of_error (h.error e rfl)

theorem mapError {f : ε → ε'} (h : Ends success failure result)
    (hf : ∀ e, failure e → failure' (f e)) :
    Ends success failure' (result.mapError f) := by
  cases result with
  | ok a => exact of_ok (h.ok a rfl)
  | error e => exact of_error (hf e (h.error e rfl))

end Ends

/-! ## Descriptions of graphs -/

namespace LabeledGraph

variable {V : Type} [BEq V] [Label V]

/-- What can be wrong with a description: a vertex is declared again, or a neighbour is not
declared. -/
def Malformed (entries : List (V × List V)) (e : GraphError) : Prop :=
  (∃ entry ∈ entries, e = .duplicateVertex (Label.quoted entry.1)) ∨
    ∃ entry ∈ entries, ∃ target ∈ entry.2, (∀ other ∈ entries, (other.1 == target) = false) ∧
      e = .danglingEdge (Label.quoted entry.1) (Label.quoted target)

theorem malformed_of_firstRepeated {entries : List (V × List V)} {entry : V × List V}
    (h : FirstRepeated entries entry) :
    Malformed entries (.duplicateVertex (Label.quoted entry.1)) := by
  obtain ⟨before, after, rfl, -⟩ := h
  exact .inl ⟨entry, List.mem_append_right _ List.mem_cons_self, rfl⟩

theorem malformed_of_dangling {entries : List (V × List V)} {edge : V × V}
    (hedge : edge ∈ listedEdges entries) (hmissing : declares entries edge.2 = false) :
    Malformed entries (.danglingEdge (Label.quoted edge.1) (Label.quoted edge.2)) := by
  obtain ⟨entry, hentry, hsource, htarget⟩ := mem_listedEdges.1 hedge
  refine .inr ⟨entry, hentry, edge.2, htarget, ?_, by rw [hsource]⟩
  rw [declares, List.any_eq_false] at hmissing
  exact fun other hother => Bool.eq_false_iff.2 (hmissing other hother)

variable [Hashable V] [EquivBEq V] [LawfulHashable V]

/-- A description makes a graph or is malformed. -/
theorem ends_ofAdjacency (entries : List (V × List V)) :
    Ends (fun g : LabeledGraph V => g.Built) (Malformed entries) (ofAdjacency entries) where
  ok _ hok := .ofAdjacency hok
  error := by
    intro e he
    by_cases hkeys : DistinctKeys entries
    · have hdangling : ∃ edge ∈ listedEdges entries, declares entries edge.2 = false := by
        by_contra hnone
        obtain ⟨g, hg, -⟩ := exists_ofAdjacency hkeys fun edge hedge =>
          Bool.of_not_eq_false fun hmissing => hnone ⟨edge, hedge, hmissing⟩
        cases he.symm.trans hg
      obtain ⟨edge, hfind⟩ := exists_firstDangling hdangling
      cases he.symm.trans (ofAdjacency_of_dangling hkeys hfind)
      exact malformed_of_dangling (List.mem_of_find?_eq_some hfind)
        (by simpa using List.find?_some hfind)
    · obtain ⟨entry, hentry⟩ := exists_firstRepeated hkeys
      cases he.symm.trans (ofAdjacency_of_firstRepeated hentry)
      exact malformed_of_firstRepeated hentry

end LabeledGraph

/-! ## Decompositions -/

namespace Graph

variable {g : Graph} {supply : Stack.Supply}

/-- Whatever passes find can be grouped. -/
theorem exists_ofPasses {strategy : Strategy} {passes : Passes}
    (hrun : Passes.runInPlace g strategy g.vertices = .ok passes) :
    ∃ d, Decomposition.ofPasses g passes = .ok d := by
  obtain ⟨r, forward, backward, hgrown⟩ := Passes.exists_grown (.refl _) hrun
  obtain ⟨d, hgrouped, -⟩ := hgrown.exists_divided
  exact ⟨d, hgrouped⟩

theorem decompose_of_reserve {strategy : Strategy} (hreserve : strategy.reserve supply = .ok ()) :
    g.decompose supply strategy =
      Passes.runInPlace g strategy g.vertices >>= Decomposition.ofPasses g := by
  rw [decompose, passes, Passes.run, hreserve]
  rfl

/-- The worklist decomposes every well-formed graph. -/
theorem exists_decompose_iterative (hg : g.WellFormed) (supply : Stack.Supply) :
    ∃ d, g.decompose supply .iterative = .ok d := by
  obtain ⟨passes, hrun⟩ := Passes.exists_runInPlace_iterative hg (.refl _)
  obtain ⟨d, hgrouped⟩ := exists_ofPasses hrun
  rw [decompose_of_reserve rfl]
  exact ⟨d, bind_eq_ok_iff.2 ⟨passes, hrun, hgrouped⟩⟩

/-- Nested calls are refused by the depth limit, or the machine refuses the stack for them. -/
def Refusal (g : Graph) (supply : Stack.Supply) (limit : Nat) (e : GraphError) : Prop :=
  DepthRefusal limit g.vertexCount e ∨
    ∃ reason, supply (Stack.request limit) = some reason ∧
      e = .stackUnavailable (Stack.request limit) reason

theorem ends_decompose_recursive (hg : g.WellFormed) (supply : Stack.Supply) (limit : Nat) :
    Ends (fun _ => True) (g.Refusal supply limit) (g.decompose supply (.recursive limit)) := by
  cases hreserve : (Strategy.recursive limit).reserve supply with
  | error e =>
      have hfailed : g.decompose supply (.recursive limit) = .error e := by
        rw [decompose, passes, Passes.run, hreserve]
        rfl
      rw [Strategy.reserve] at hreserve
      split at hreserve
      · cases hreserve
      · rename_i reason hrefused
        cases hreserve
        rw [hfailed]
        exact .of_error (.inr ⟨reason, hrefused, rfl⟩)
  | ok =>
      obtain ⟨passes, hrun⟩ := Passes.exists_runInPlace_iterative hg (.refl _)
      obtain ⟨r, forward, backward, -, -, -, -, hwithin⟩ :=
        Passes.runInPlace_withinRoom (.refl _) hrun
      rw [decompose_of_reserve hreserve]
      -- With the stack at hand, only the heights of the forests that the worklist grows matter.
      rcases Nat.lt_or_ge limit (max forward.height backward.height) with hlt | hge
      · obtain ⟨e, hdepth, hrefused⟩ := (hwithin limit).refused hlt
        rw [vertices, hrefused]
        exact .of_error (.inl hdepth)
      · have hnested := (hwithin limit).ok hge
        obtain ⟨d, hgrouped⟩ := exists_ofPasses hnested
        rw [vertices, hnested]
        show Ends _ _ (Decomposition.ofPasses g passes)
        rw [hgrouped]
        exact .of_ok trivial

end Graph

/-! ## Computations and commands -/

section Computations

variable {V : Type} [BEq V] [Hashable V] [EquivBEq V] [LawfulHashable V] [Label V]
  {g : LabeledGraph V}

namespace LabeledGraph.Built

theorem exists_compute_iterative (hg : g.Built) (supply : Stack.Supply) :
    ∃ r, (g.compute (·.decompose supply .iterative)).2 = .ok r := by
  obtain ⟨d, hdetected⟩ := Graph.exists_decompose_iterative hg.consistent.wellFormed supply
  exact ⟨_, hg.compute_of_decompose hdetected⟩

/-- With nested calls a computation fails for want of depth or of stack only. -/
theorem ends_compute_recursive (hg : g.Built) (supply : Stack.Supply) (limit : Nat) :
    Ends (fun _ => True) (fun f => ∃ e, f.cause = .graph e ∧ g.graph.Refusal supply limit e)
      (g.compute (·.decompose supply (.recursive limit))).2 := by
  have hends := Graph.ends_decompose_recursive hg.consistent.wellFormed supply limit
  cases hdetected : g.graph.decompose supply (.recursive limit) with
  | ok d =>
      rw [hg.compute_of_decompose hdetected]
      exact .of_ok trivial
  | error e =>
      obtain ⟨stages, hfailed⟩ :=
        compute_of_failed (·.decompose supply (.recursive limit)) hdetected
      rw [hfailed]
      exact .of_error ⟨e, rfl, hends.error e hdetected⟩

end LabeledGraph.Built

/-- Causes that a run may fail for. Of the errors of graphs these are a malformed description and a
refused traversal; that a look-up or a write goes astray, above all, is not among them. -/
def Cause.Foreseen : Cause → Prop
  | .graph (.danglingEdge _ _) => True
  | .graph (.duplicateVertex _) => True
  | .graph (.depthExceeded _ _) => True
  | .graph (.stackUnavailable _ _) => True
  | .graph _ => False
  | .edgeList (.graph _) => False
  | _ => True

/-- A run, or a part of it, that fails for foreseen causes only. -/
abbrev Foreseen {α : Type} (success : α → Prop) (result : Except Failure α) : Prop :=
  Ends success (fun f => f.cause.Foreseen) result

theorem Foreseen.during {α : Type} {success : α → Prop} {result : Except Failure α} (stage : Stage)
    (h : Foreseen success result) : Foreseen success (during stage result) :=
  h.mapError fun _ hf => hf

/-- An error that is foreseen whatever it says. -/
theorem Foreseen.failing {ε α : Type} {success : α → Prop} (cause : ε → Cause)
    (hcause : ∀ e, (cause e).Foreseen) {result : Except ε α}
    (hok : ∀ a, result = .ok a → success a) : Foreseen success (failing cause result) := by
  cases result with
  | ok a => exact .of_ok (hok a rfl)
  | error e => exact .of_error (hcause e)

theorem LabeledGraph.foreseen_ofAdjacency (entries : List (V × List V)) :
    Foreseen (fun g : LabeledGraph V => g.Built) (failing .graph (ofAdjacency entries)) := by
  apply (ends_ofAdjacency entries).mapError
  rintro e (⟨entry, -, rfl⟩ | ⟨entry, -, target, -, -, rfl⟩)
  · trivial
  · trivial

theorem LabeledGraph.Built.foreseen_compute (hg : g.Built) (supply : Stack.Supply)
    (strategy : Strategy) :
    Foreseen (fun _ => True) (g.compute (·.decompose supply strategy)).2 := by
  cases strategy with
  | iterative =>
      obtain ⟨r, hr⟩ := hg.exists_compute_iterative supply
      rw [hr]
      exact .of_ok trivial
  | recursive limit =>
      refine ⟨fun _ _ => trivial, ?_⟩
      intro f hf
      obtain ⟨e, hcause, ⟨v, -, rfl⟩ | ⟨reason, -, rfl⟩⟩ :=
        (hg.ends_compute_recursive supply limit).error f hf
      · rw [hcause]
        trivial
      · rw [hcause]
        trivial

end Computations

/-- Carrying a computation out fails where the computation does. -/
theorem ComputeOptions.perform_snd {V : Type} [BEq V] [Hashable V] [Label V]
    (options : ComputeOptions) (machine : Machine) (g : LabeledGraph V) :
    (options.perform machine g).2 = (g.compute (·.decompose machine.stack options.strategy)).2 := by
  rw [perform]
  rcases g.compute (·.decompose machine.stack options.strategy) with ⟨events, f | r⟩
  · rfl
  · rfl

theorem Source.load_edgeList {read : FileReader} {path text : String}
    (hread : read path = .ok text.toUTF8) :
    Source.load read ⟨path, .edgeList⟩ =
      during (.readingEdgeList path) (failing .edgeList (EdgeList.parse text)) := by
  have htext : readText read path = .ok text := by
    rw [readText, hread]
    exact decodeText_toUTF8 text
  rw [load, htext]
  rfl

/-- Every file is a graph that can be made, or it is refused. -/
theorem Source.foreseen_load (read : FileReader) (source : Source) :
    Foreseen (fun g => g.Built) (source.load read) := by
  rw [load]
  split
  · apply ((Foreseen.failing .file (fun _ => trivial) fun _ _ => trivial).during _).bind
    intro text _
    apply Foreseen.during
    rw [GraphFile.validateText]
    apply ((Foreseen.failing .document (fun _ => trivial) fun _ _ => trivial).during _).bind
    intro document _
    apply (Foreseen.failing .schema (fun _ => trivial) fun _ _ => trivial).bind
    intro _ _
    apply (Foreseen.failing .graphFile (fun _ => trivial) fun _ _ => trivial).bind
    intro file _
    exact (LabeledGraph.foreseen_ofAdjacency _).during _
  · apply Foreseen.during
    apply (Foreseen.failing .file (fun _ => trivial) fun _ _ => trivial).bind
    intro text _
    refine ⟨fun g hg => EdgeList.built_of_parse (failing_eq_ok_iff.1 hg), ?_⟩
    intro f hf
    cases hparsed : EdgeList.parse text with
    | ok g =>
        rw [hparsed] at hf
        cases hf
    | error e =>
        obtain ⟨line, count, rfl⟩ := EdgeList.tooManyLabels_of_parse hparsed
        rw [hparsed] at hf
        cases hf
        trivial

namespace Command

/-- Computing comes after loading. -/
theorem perform_compute_snd (machine : Machine) (read : FileReader) (source : Source)
    (output : Option String) (options : ComputeOptions) :
    (perform machine read (.compute source output options)).2 =
      source.load read >>= fun g =>
        (options.perform machine g).2.map fun report => output.map (⟨·, report.document⟩) := by
  rw [perform]
  cases source.load read with
  | error f => rfl
  | ok g => rfl

theorem perform_sample_snd (machine : Machine) (read : FileReader) (options : ComputeOptions) :
    (perform machine read (.sample options)).2 =
      during .buildingSample (failing .graph sampleGraph) >>= fun g =>
        (options.perform machine g).2.map fun _ => none := by
  rw [perform]
  cases during .buildingSample (failing .graph sampleGraph) with
  | error f => rfl
  | ok g => rfl

/-- A graph that is loaded without surprise is reported on without surprise. -/
theorem foreseen_bind_perform {V α : Type} [BEq V] [Hashable V] [EquivBEq V] [LawfulHashable V]
    [Label V] {loaded : Except Failure (LabeledGraph V)}
    (hloaded : Foreseen (fun g => g.Built) loaded) (machine : Machine) (options : ComputeOptions)
    (f : Report → α) :
    Foreseen (fun _ => True) (loaded >>= fun g => (options.perform machine g).2.map f) := by
  apply hloaded.bind
  intro g hg
  rw [options.perform_snd]
  exact (hg.foreseen_compute machine.stack options.strategy).map fun _ _ => trivial

/-- Every command fails for foreseen causes only. -/
theorem foreseen_perform (machine : Machine) (read : FileReader) (command : Command) :
    Foreseen (fun _ => True) (command.perform machine read).2 := by
  cases command with
  | compute source output options =>
      rw [perform_compute_snd]
      exact foreseen_bind_perform (source.foreseen_load read) machine options _
  | validate source =>
      have hloaded := source.foreseen_load read
      rw [perform]
      cases hload : source.load read with
      | error f => exact .of_error (hloaded.error f hload)
      | ok g => exact .of_ok trivial
  | sample options =>
      rw [perform_sample_snd]
      exact foreseen_bind_perform
        ((LabeledGraph.foreseen_ofAdjacency sampleAdjacency).during _) machine options _

end Command

theorem result_of_failed_perform {arguments : List String} {command : Command}
    (hcommand : Command.ofArguments arguments = .ok command) {machine : Machine} {disk : Disk}
    {f : Failure} (h : (command.perform machine disk.read).2 = .error f) :
    (run machine disk arguments).result = .error f := by
  rw [run, hcommand]
  dsimp only
  generalize command.perform machine disk.read = performed at h ⊢
  obtain ⟨printed, result⟩ := performed
  cases h
  rfl

theorem foreseen_run (machine : Machine) (disk : Disk) (arguments : List String) :
    Foreseen (fun _ => True) (run machine disk arguments).result := by
  rw [run]
  cases Command.ofArguments arguments with
  | error e => exact .of_error trivial
  | ok command =>
      have hperformed := command.foreseen_perform machine disk.read
      simp only
      generalize command.perform machine disk.read = performed at hperformed ⊢
      obtain ⟨printed, f | _ | output⟩ := performed
      · exact .of_error (hperformed.error f rfl)
      · exact .of_ok trivial
      · have hwritten : Foreseen (fun _ => True) (during (.writingReport output.path)
            (failing .file (disk.write output.path output.text.toUTF8))) :=
          (Foreseen.failing .file (fun _ => trivial) fun _ _ => trivial).during _
        simp only
        cases hwrite : during (.writingReport output.path)
            (failing .file (disk.write output.path output.text.toUTF8)) with
        | error f => exact .of_error (hwritten.error f hwrite)
        | ok disk' => exact .of_ok trivial

/-- Malformed input is refused when a graph is made of it, and nothing goes astray after that. For
every graph that can be made and whatever stack the machine has, the worklist computes a report,
and nested calls with a depth limit compute one unless they are refused a vertex by that limit or
the machine has no stack for them. A description that makes no graph declares a vertex again or has
a neighbour that it declares nowhere, and a list of edges always makes one. A sweep reports
vertices only, so that it is all the same what its visitors would do with other numbers, and
nothing is written past the end of their lists. And whatever the arguments are and the files hold,
a run that fails does so for one of the foreseen causes, among which there is no look-up and no
write past the end of a list. -/
theorem failures_foreseen {V : Type} [BEq V] [Hashable V] [EquivBEq V] [LawfulHashable V] [Label V]
    (g : LabeledGraph V) (hg : g.Built) (entries : List (V × List V)) (edges : List (V × V))
    (machine : Machine) (disk : Disk) (arguments : List String) :
    (∃ r, (g.compute (·.decompose machine.stack .iterative)).2 = .ok r) ∧
      (∀ limit f, (g.compute (·.decompose machine.stack (.recursive limit))).2 = .error f →
        (∃ v < g.vertexCount, f.cause = .graph (.depthExceeded limit v)) ∨
          ∃ reason, machine.stack (Stack.request limit) = some reason ∧
            f.cause = .graph (.stackUnavailable (Stack.request limit) reason)) ∧
      (∀ e, LabeledGraph.ofAdjacency entries = .error e → LabeledGraph.Malformed entries e) ∧
      (∃ h : LabeledGraph V, LabeledGraph.ofEdgeList edges = .ok h) ∧
      (∀ (h : Graph) (strategy : Strategy) (roots : List Nat) (σ : Type)
        (visitor visitor' : Nat → Visitor σ) (record : σ),
        (∀ root, (visitor root).AgreeBelow h.vertexCount (visitor' root)) →
          h.sweep strategy visitor roots (.fresh h.vertexCount record) =
            h.sweep strategy visitor' roots (.fresh h.vertexCount record)) ∧
      ∀ f, (run machine disk arguments).result = .error f → f.cause.Foreseen := by
  refine ⟨hg.exists_compute_iterative _, ?_, (LabeledGraph.ends_ofAdjacency entries).error,
    LabeledGraph.exists_ofEdgeList edges, ?_, (foreseen_run machine disk arguments).error⟩
  · intro limit f hf
    obtain ⟨e, hcause, ⟨v, hv, rfl⟩ | ⟨reason, hrefused, rfl⟩⟩ :=
      (hg.ends_compute_recursive _ limit).error f hf
    · exact .inl ⟨v, hv, hcause⟩
    · exact .inr ⟨reason, hrefused, hcause⟩
  · intro h strategy roots σ visitor visitor' record hagree
    exact Graph.sweep_congr hagree strategy roots _ Array.size_replicate

/-- An edge is too deep for a limit of one, in a graph at hand as in a file, and a
description may not omit its target. -/
theorem failures_foreseen_edge :
    ∃ g : LabeledGraph Int, LabeledGraph.ofEdgeList [(5, 7)] = .ok g ∧
      (∃ r, (g.compute (·.decompose Stack.ofAddressSpace .iterative)).2 = .ok r) ∧
      (∃ f, (g.compute (·.decompose Stack.ofAddressSpace (.recursive 1))).2 = .error f ∧
        ∃ v < 2, f.cause = .graph (.depthExceeded 1 v)) ∧
      (∃ e,
        (LabeledGraph.ofAdjacency [(5, [7])] : Except GraphError (LabeledGraph Int)) = .error e ∧
        LabeledGraph.Malformed [((5 : Int), [7])] e) ∧
      ∃ f, (run ⟨Stack.ofAddressSpace, 0⟩ (Disk.empty.addFile ["g"] "a b\nb".toUTF8)
          ["scc", "scc", "compute", "--in", "g", "--strategy", "recursive",
            "--max-depth", "1"]).result = .error f ∧
        f.cause.Foreseen := by
  have hmade : (LabeledGraph.ofEdgeList [((5 : Int), (7 : Int))]).map (fun g =>
      (g.vertexCount, g.graph.decompose Stack.ofAddressSpace (.recursive 1))) =
      .ok (2, .error (.depthExceeded 1 1)) := by
    cbv
  obtain ⟨g, hg, hshown⟩ := map_eq_ok_iff.1 hmade
  obtain ⟨hcount, hdeep⟩ := Prod.mk.inj hshown
  obtain ⟨hiterative, hrecursive, hentries, -, -, hrun⟩ :=
    failures_foreseen g (.ofEdgeList hg) [(5, [7])] [] ⟨Stack.ofAddressSpace, 0⟩
      (Disk.empty.addFile ["g"] "a b\nb".toUTF8)
      ["scc", "scc", "compute", "--in", "g", "--strategy", "recursive", "--max-depth", "1"]
  obtain ⟨stages, hfails⟩ :=
    LabeledGraph.compute_of_failed (·.decompose Stack.ofAddressSpace (.recursive 1)) hdeep
  have hcommand : Command.ofArguments
      ["scc", "scc", "compute", "--in", "g", "--strategy", "recursive", "--max-depth", "1"] =
        .ok (.compute ⟨"g", .edgeList⟩ none ⟨none, .recursive 1, false⟩) := by
    decide
  obtain ⟨f, hfailed⟩ : ∃ f,
      (run ⟨Stack.ofAddressSpace, 0⟩ (Disk.empty.addFile ["g"] "a b\nb".toUTF8)
        ["scc", "scc", "compute", "--in", "g", "--strategy", "recursive",
          "--max-depth", "1"]).result = .error f := by
    have hleads : (Disk.empty.addFile ["g"] "a b\nb".toUTF8).LeadsTo "g" [] "g" := by decide
    have hparsed : (EdgeList.parse "a b\nb").map (fun g =>
        g.graph.decompose Stack.ofAddressSpace (.recursive 1)) =
          .ok (.error (.depthExceeded 1 1)) := by
      cbv
    obtain ⟨g', hparse, hdeep'⟩ := map_eq_ok_iff.1 hparsed
    obtain ⟨stages', hfails'⟩ :=
      LabeledGraph.compute_of_failed (·.decompose Stack.ofAddressSpace (.recursive 1)) hdeep'
    refine ⟨⟨stages', .graph (.depthExceeded 1 1)⟩, result_of_failed_perform hcommand ?_⟩
    rw [Command.perform_compute_snd, Source.load_edgeList (hleads.read_eq rfl), hparse]
    show (ComputeOptions.perform _ _ g').2.map _ = _
    rw [ComputeOptions.perform_snd, hfails']
    rfl
  have homitted : (LabeledGraph.ofAdjacency [(5, [7])] : Except GraphError (LabeledGraph Int)) =
      .error (.danglingEdge "5" "7") := by
    cbv
  refine ⟨g, hg, hiterative, ⟨_, hfails, ?_⟩, ⟨_, homitted, hentries _ homitted⟩,
    ⟨_, hfailed, hrun _ hfailed⟩⟩
  rcases hrecursive 1 _ hfails with hdepth | ⟨reason, -, hstack⟩
  · rwa [hcount] at hdepth
  · cases hstack

end StrongComponents
