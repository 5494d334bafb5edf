import ActionTools.Proofs.Repository.Generated
import ActionTools.Proofs.Repository.History
import ActionTools.Proofs.RoundTrip

/-!
# Reading back the catalog that was compiled

A catalog puts more around the parameters of an action than the workflow did that they come from:
the action, the metadata, the tool and the list of tools, instead of the action, the list of actions
and the workflow. So there are workflows that can be read whose catalog cannot: those with
parameters that use up what the reader allows inside a workflow (`parse_text_compiled_nesting`).
The text of every other catalog is read, pretty or compact, and gives the very catalog
(`parse_text_compiled`).

This rests on what is true of every catalog: its text is read back exactly when it is not nested
too deep (`Catalog.parse_text_of_shallow`, `Catalog.parse_text_of_not_shallow`). What is added here
is how deep a template of a compilation can be.
-/

namespace ActionTools

open Document

/-! ### Compilations -/

namespace Call

/-- The calls of a compilation: override entries are registered, then workflows are added. What has
been counted so far does not matter to the tools. -/
def compilation (entries : List OverrideEntry) (skipScaffolding : Bool)
    (workflows : List Workflow) : List Call :=
  .register entries :: workflows.map (.workflow skipScaffolding .zero)

/-- A compilation adds actions of its workflows only. -/
theorem mem_added_compilation {entries : List OverrideEntry} {skipScaffolding : Bool}
    {workflows : List Workflow} {call : Call}
    (h : call ∈ compilation entries skipScaffolding workflows) {action : Action}
    (haction : action ∈ call.added) : ∃ workflow ∈ workflows, action ∈ workflow.actions := by
  rcases List.mem_cons.1 h with rfl | h
  · exact absurd haction List.not_mem_nil
  · obtain ⟨workflow, hworkflow, rfl⟩ := List.mem_map.1 h
    exact ⟨workflow, hworkflow, haction⟩

end Call

namespace Action

variable {action : Action} {lookup : Lookup} {policy : CollisionPolicy} {spec : Spec}

/-- The places of parameters have no indices beyond the width of the action. -/
theorem indexable_generate (h : action.generate lookup policy = .ok spec)
    (hwidth : action.parameters.json.width ≤ Segment.indexLimit) : spec.metadata.Indexable := by
  rintro ⟨name, path⟩ hentry segment hsegment
  have hpath : path ∈ Json.referencesInEntries action.parameters.entries :=
    (exists_get?_paths_iff h).1 ⟨name, NameMap.get?_eq_some_iff.2 hentry⟩
  obtain ⟨entry, hmem, rest, hrest, rfl⟩ := Json.mem_referencesInEntries.1 hpath
  cases segment with
  | key name => trivial
  | index index =>
    have hindex : .index index ∈ rest := by simpa using hsegment
    have hvalue : entry.2.width ≤ Segment.indexLimit := Json.width_object_le_iff.1 hwidth entry hmem
    exact (Json.index_lt_width hrest hindex).trans_le hvalue

end Action

section Compilation

variable {κ : Type} [BEq κ] [Hashable κ] (digest : String → κ) (toolType : String)
  (lookup : Lookup) (policy : CollisionPolicy) (entries : List OverrideEntry)
  (skipScaffolding : Bool)

/-- The catalog of a compilation. -/
def compiled (workflows : List Workflow) : Catalog :=
  ((Repository.new digest toolType lookup policy).run
    (Call.compilation entries skipScaffolding workflows)).1.catalog

/-- Every tool of a compilation was generated for an action of some workflow. -/
theorem exists_action_of_mem_compiled {workflows : List Workflow} {tagged : TaggedSpec}
    (h : tagged ∈
      (compiled digest toolType lookup policy entries skipScaffolding workflows).specs) :
    ∃ workflow ∈ workflows, ∃ action ∈ workflow.actions, ∃ spec,
      action.generate lookup policy = .ok spec ∧ tagged.spec.metadata = spec.metadata := by
  obtain ⟨call, hcall, action, hadded, spec, hgenerate, -, hmetadata⟩ :=
    Repository.exists_generate_of_mem_catalog digest toolType lookup policy _ h
  obtain ⟨workflow, hworkflow, haction⟩ := Call.mem_added_compilation hcall hadded
  exact ⟨workflow, hworkflow, action, haction, spec, hgenerate, hmetadata⟩

section Texts

variable {texts : List String} {workflows : List Workflow}
  (hread : texts.map (fun text ↦ (Document.parse? text).bind Workflow.ofDocument?) =
    workflows.map some)
  (hsize : ∀ text ∈ texts, text.length < 0x8000000000000000)
  (hdoubles : ∀ workflow ∈ workflows, ∀ action ∈ workflow.actions,
    action.parameters.json.ReadsBack)

include hread hsize hdoubles

/-- A template comes from a workflow that was read, and has no more than can be read there. -/
theorem bounds_of_mem_compiled {tagged : TaggedSpec}
    (h : tagged ∈
      (compiled digest toolType lookup policy entries skipScaffolding workflows).specs) :
    tagged.spec.metadata.parametersDepth + 3 ≤ nestingLimit ∧
      tagged.spec.metadata.template.parameters.json.ReadsBack ∧
      tagged.spec.metadata.Indexable := by
  obtain ⟨workflow, hworkflow, action, haction, spec, hgenerate, hmetadata⟩ :=
    exists_action_of_mem_compiled digest toolType lookup policy entries skipScaffolding h
  obtain ⟨text, htext, hworkflow'⟩ :
      ∃ text ∈ texts, (Document.parse? text).bind Workflow.ofDocument? = some workflow :=
    List.mem_map.1 (hread ▸ List.mem_map_of_mem hworkflow)
  obtain ⟨hdepth, hwidth⟩ := Workflow.parameters_le_of_parse? hworkflow' haction
  have hlimit : action.parameters.json.width ≤ 0x10000000000000000 := by
    have hlength := hsize text htext
    omega
  rw [Metadata.parametersDepth, hmetadata, Action.template_generate hgenerate]
  exact ⟨hdepth, hdoubles workflow hworkflow action haction,
    Action.indexable_generate hgenerate hlimit⟩

/-- **A compiled catalog is read back exactly when its templates leave room for what it puts around
them**, and at most one level is missing. The texts of the workflows are such as fit in memory, and
their doubles are read back from what they are printed as. -/
theorem parse_text_compiled (isPretty : Bool) :
    let catalog := compiled digest toolType lookup policy entries skipScaffolding workflows
    (∀ tagged ∈ catalog.specs, tagged.spec.metadata.parametersDepth + 3 ≤ nestingLimit) ∧
      Catalog.parse (catalog.text isPretty) =
        if catalog.Shallow then .ok catalog else .error .invalidJson := by
  intro catalog
  have hbounds (tagged : TaggedSpec) (htagged : tagged ∈ catalog.specs) :=
    bounds_of_mem_compiled digest toolType lookup policy entries skipScaffolding hread hsize
      hdoubles htagged
  refine ⟨fun tagged htagged ↦ (hbounds tagged htagged).1, ?_⟩
  split
  · next hshallow =>
    exact Catalog.parse_text_of_shallow hshallow (fun tagged htagged ↦ (hbounds tagged htagged).2.1)
      (fun tagged htagged ↦ (hbounds tagged htagged).2.2) isPretty
  · next hdeep => exact Catalog.parse_text_of_not_shallow hdeep isPretty

end Texts

end Compilation

/-- A workflow with one action, which has a reference and a double. -/
def askingWorkflow : Workflow := .ofActions [asking]

/-- An override for its tool. -/
def askingEntries : List OverrideEntry := [⟨asking, ⟨some "question", none, none, none⟩⟩]

theorem specs_askingWorkflow :
    ∃ spec, (compiled id "tools" ∅ .fallback askingEntries true [askingWorkflow]).specs =
        [⟨"tools", spec⟩] ∧
      spec.effectiveName = "question" ∧ spec.metadata.template = asking := by
  have h : Distinguishes id ∅ .fallback (Call.compilation askingEntries true [askingWorkflow]) :=
    ⟨by decide, Function.injective_id.injOn⟩
  obtain ⟨htype, htools⟩ := tools_run h "tools"
  rw [compiled, Repository.catalog, Repository.list, htype, htools]
  exact ⟨_, rfl, rfl, rfl⟩

theorem length_askingWorkflow : (askingWorkflow.json.text false).length < 0x8000000000000000 := by
  rw [Json.text, if_neg Bool.false_ne_true, Json.compact, String.length_ofList]
  decide +kernel

/-- The catalog of the workflow is read back with its override. -/
theorem parse_text_compiled_asking :
    ∃ spec, (compiled id "tools" ∅ .fallback askingEntries true [askingWorkflow]).specs =
        [⟨"tools", spec⟩] ∧
      spec.effectiveName = "question" ∧
      Catalog.parse
          ((compiled id "tools" ∅ .fallback askingEntries true [askingWorkflow]).text true) =
        .ok (compiled id "tools" ∅ .fallback askingEntries true [askingWorkflow]) := by
  obtain ⟨spec, hspecs, hname, htemplate⟩ := specs_askingWorkflow
  have hread : [askingWorkflow.json.text false].map
      (fun text ↦ (Document.parse? text).bind Workflow.ofDocument?) =
        [askingWorkflow].map some :=
    congrArg (fun found ↦ [found])
      (Workflow.ofDocument?_parse?_text (by decide +kernel) (by decide +kernel) false)
  have hsize : ∀ text ∈ [askingWorkflow.json.text false], text.length < 0x8000000000000000 :=
    List.forall_mem_singleton.2 length_askingWorkflow
  obtain ⟨-, hparse⟩ := parse_text_compiled id "tools" ∅ .fallback askingEntries true hread hsize
    (by decide +kernel) true
  have hroom : spec.metadata.parametersDepth + 4 ≤ nestingLimit := by
    rw [Metadata.parametersDepth, htemplate]
    decide
  exact ⟨spec, hspecs, hname, hparse.trans (if_pos ((Catalog.shallow_of_specs hspecs).2 hroom))⟩

/-! ### A workflow at the limit -/

/-- A reference inside some sequences. -/
def nested : Nat → Json
  | 0 => .reference "v"
  | n + 1 => .array [nested n]

theorem distinct_nested (n : Nat) : (nested n).Distinct := by
  induction n with
  | zero => decide
  | succ n ih => exact Json.distinct_array.2 (List.forall_mem_singleton.2 ih)

/-- An action with a reference inside some sequences. -/
def nesting (n : Nat) : Action where
  identifier := "nest"
  parameters := ⟨[("list", nested n)], by simpa [Entries.keys] using distinct_nested n⟩

set_option maxRecDepth 4000 in
theorem specs_nesting :
    ∃ spec, (nesting 122).generate ∅ .fallback = .ok spec ∧
      (compiled id "tools" ∅ .fallback [] true [.ofActions [nesting 122]]).specs =
        [⟨"tools", spec⟩] := by
  have h : Distinguishes id ∅ .fallback
      (Call.compilation [] true [.ofActions [nesting 122]]) :=
    ⟨by decide +kernel, Function.injective_id.injOn⟩
  obtain ⟨htype, htools⟩ := tools_run h "tools"
  rw [compiled, Repository.catalog, Repository.list, htype, htools]
  exact ⟨_, rfl, rfl⟩

/-- **A workflow whose catalog cannot be read**: it is itself at the limit of nesting. -/
theorem parse_text_compiled_nesting :
    (Document.parse? ((Workflow.ofActions [nesting 122]).json.text true)).bind
        Workflow.ofDocument? = some (.ofActions [nesting 122]) ∧
      (∃ spec, (nesting 122).generate ∅ .fallback = .ok spec ∧
        (compiled id "tools" ∅ .fallback [] true [.ofActions [nesting 122]]).specs =
          [⟨"tools", spec⟩]) ∧
      ∀ isPretty, Catalog.parse
          ((compiled id "tools" ∅ .fallback [] true [.ofActions [nesting 122]]).text isPretty) =
        .error .invalidJson := by
  obtain ⟨spec, hgenerate, hspecs⟩ := specs_nesting
  have hroom : ¬ spec.metadata.parametersDepth + 4 ≤ nestingLimit := by
    rw [Metadata.parametersDepth, Action.template_generate hgenerate]
    decide +kernel
  refine ⟨Workflow.ofDocument?_parse?_text (by decide +kernel) (by decide +kernel) true,
    ⟨spec, hgenerate, hspecs⟩, fun isPretty ↦ Catalog.parse_text_of_not_shallow ?_ isPretty⟩
  rwa [Catalog.shallow_of_specs hspecs]

end ActionTools
