import ActionTools.Proofs.Repository.Generated
import ActionTools.Proofs.Repository.History

/-!
# The schema that callers see and the calls that are accepted

Callers see the effective definition of a tool, in which an override may have replaced the
parameters. A call is checked against the definition as generated and the places in the template. So
the schema and the check agree as far as the override does not part them: `Spec.Placed` says that
every parameter callers see has a place, `Spec.Demanding` that what the generated definition
requires is shown as required. Both hold when the override leaves the parameters open
(`Spec.placed_and_demanding`).

A call that keeps to the schema (`Spec.Conforms`) is never refused for an unknown parameter exactly
when all parameters have places. When the schema is demanding as well, every such call is accepted
(`run_schema`).
-/

namespace ActionTools

namespace Definition

/-- The names of the parameters that have to be given. -/
def requiredNames (definition : Definition) : List String :=
  (definition.parameters.entries.filter fun entry ↦ entry.2.required).map Prod.fst

/-- A name is required when the definition lists it so. -/
theorem mem_requiredNames {definition : Definition} {name : String} :
    name ∈ definition.requiredNames ↔
      ∃ parameter,
        definition.parameters.get? name = some parameter ∧ parameter.required = true := by
  simp [requiredNames, NameMap.get?_eq_some_iff, and_comm]

/-- The schema that callers are shown has the parameters as properties and names the required
ones. -/
theorem get?_inputSchema (definition : Definition) :
    (∃ properties, definition.inputSchema.get? "properties" = some (.object properties) ∧
        Entries.keys properties = definition.parameters.names) ∧
      definition.inputSchema.get? "required" =
        some (.array (definition.requiredNames.map .string)) := by
  refine ⟨⟨_, rfl, ?_⟩, ?_⟩
  · simp [Entries.keys, NameMap.names]
  · rw [requiredNames, List.map_map]
    rfl

end Definition

namespace Spec

variable {spec : Spec} {parameters : Mapping}

/-- A call keeps to the schema: all it gives is listed, and what is listed as required is given. -/
structure Conforms (spec : Spec) (parameters : Mapping) : Prop where
  listed : ∀ name ∈ parameters.keys, name ∈ spec.effectiveDefinition.parameters.names
  given : ∀ name ∈ spec.effectiveDefinition.requiredNames, name ∈ parameters.keys

/-- Every parameter that callers see has a place in the template. -/
def Placed (spec : Spec) : Prop :=
  ∀ name ∈ spec.effectiveDefinition.parameters.names, name ∈ spec.metadata.paths.names

/-- Every parameter that the generated definition requires is shown as required. -/
def Demanding (spec : Spec) : Prop :=
  ∀ name ∈ spec.definition.requiredNames, name ∈ spec.effectiveDefinition.requiredNames

/-- An override without parameters leaves the parameters as they were generated. -/
theorem parameters_effectiveDefinition (h : spec.override.bind Override.parameters = none) :
    spec.effectiveDefinition.parameters = spec.definition.parameters := by
  rw [Interface.effectiveDefinition]
  cases hoverride : spec.override with
  | none => rfl
  | some override =>
    have hopen : override.parameters = none := by simpa [hoverride] using h
    simp [Override.apply, hopen]

/-- An override that leaves the parameters open changes nothing that matters to a call. -/
theorem placed_and_demanding (hnames : spec.definition.parameters.names = spec.metadata.paths.names)
    (h : spec.override.bind Override.parameters = none) : spec.Placed ∧ spec.Demanding := by
  have heffective := parameters_effectiveDefinition h
  constructor
  · intro name hname
    rwa [heffective, hnames] at hname
  · intro name hname
    rwa [Definition.requiredNames, heffective]

/-! ### Unknown parameters -/

/-- The call that gives every parameter that callers see. -/
def fullCall (spec : Spec) : Mapping where
  entries := spec.effectiveDefinition.parameters.entries.map fun entry ↦ (entry.1, .null)
  distinct := by
    refine Json.distinct_object.2 ⟨?_, fun entry hentry ↦ ?_⟩
    · exact (spec.effectiveDefinition.parameters.map fun _ _ ↦ Json.null).nodup_keys_entries
    · obtain ⟨_, -, rfl⟩ := List.mem_map.1 hentry
      trivial

theorem keys_fullCall (spec : Spec) :
    spec.fullCall.keys = spec.effectiveDefinition.parameters.names := by
  simp [fullCall, Mapping.keys, Entries.keys, NameMap.names]

/-- A call that gives every parameter conforms. -/
theorem conforms_fullCall (spec : Spec) : spec.Conforms spec.fullCall where
  listed name hname := spec.keys_fullCall ▸ hname
  given name hname := by
    rw [keys_fullCall]
    obtain ⟨entry, hentry, rfl⟩ := List.mem_map.1 hname
    exact List.mem_map_of_mem (List.mem_of_mem_filter hentry)

/-- A call is refused for an unknown parameter exactly when it gives one without a place. -/
theorem instantiate_ne_unknown_iff (h : spec.metadata.Fillable) :
    (∀ tool name, spec.instantiate parameters ≠ .error (.unknownParameter tool name)) ↔
      ∀ name ∈ parameters.keys, name ∈ spec.metadata.paths.names := by
  rw [← unknownParameter?_eq_none_iff]
  constructor
  · intro haccepted
    cases hunknown : spec.unknownParameter? parameters with
    | none => rfl
    | some name => exact absurd (instantiate_of_unknown hunknown) (haccepted _ _)
  · intro hunknown tool name herror
    cases hmissing : spec.missingParameter? parameters with
    | some missing =>
      rw [instantiate_of_missing hunknown hmissing] at herror
      cases herror
    | none =>
      obtain ⟨action, haction, -⟩ := exists_instantiate h hunknown hmissing
      rw [haction] at herror
      cases herror

/-- **Calls that keep to the schema are never refused for an unknown parameter** exactly when all
parameters that callers see have places. -/
theorem placed_iff (hfillable : spec.metadata.Fillable) :
    spec.Placed ↔ ∀ parameters, spec.Conforms parameters → ∀ tool name,
      spec.instantiate parameters ≠ .error (.unknownParameter tool name) := by
  constructor
  · intro h parameters hconforms
    exact (instantiate_ne_unknown_iff hfillable).2 fun name hname ↦
      h name (hconforms.listed name hname)
  · intro h name hname
    have hfull := (instantiate_ne_unknown_iff hfillable).1 (h _ spec.conforms_fullCall)
    exact hfull name (spec.keys_fullCall ▸ hname)

/-! ### Missing parameters -/

/-- **Calls that keep to a demanding schema are accepted** when all parameters have places. -/
theorem Conforms.exists_instantiate
    (hnames : spec.definition.parameters.names = spec.metadata.paths.names)
    (hfillable : spec.metadata.Fillable) (hplaced : spec.Placed) (hdemanding : spec.Demanding)
    (h : spec.Conforms parameters) : ∃ action, spec.instantiate parameters = .ok action := by
  have hknown : spec.unknownParameter? parameters = none :=
    unknownParameter?_eq_none_iff.2 fun name hname ↦ hplaced name (h.listed name hname)
  have hmissing : spec.missingParameter? parameters = none := by
    refine List.find?_eq_none.2 fun name hname hlacks ↦ ?_
    obtain ⟨-, ⟨parameter, hparameter, hrequired⟩, hnot⟩ := (lacks_iff hnames hname).2 hlacks
    have hshown :=
      hdemanding name (Definition.mem_requiredNames.2 ⟨parameter, hparameter, hrequired⟩)
    exact hnot (h.given name hshown)
  obtain ⟨action, haction, -⟩ := Spec.exists_instantiate hfillable hknown hmissing
  exact ⟨action, haction⟩

end Spec

/-! ### Runs -/

section Runs

variable {κ : Type} [BEq κ] [Hashable κ] (digest : String → κ) (toolType : String)
  (lookup : Lookup) (policy : CollisionPolicy) (calls : List Call)

/-- The tools of a run keep what makes calls possible: definitions that list the parameters with
places, and places that can be filled. -/
theorem names_and_fillable_run {tagged : TaggedSpec}
    (h : tagged ∈ ((Repository.new digest toolType lookup policy).run calls).1.catalog.specs) :
    tagged.spec.definition.parameters.names = tagged.spec.metadata.paths.names ∧
      tagged.spec.metadata.Fillable := by
  obtain ⟨_, -, _, -, spec, hgenerate, hdefinition, hmetadata⟩ :=
    Repository.exists_generate_of_mem_catalog digest toolType lookup policy calls h
  rw [hdefinition, hmetadata]
  exact ⟨Action.names_parameters hgenerate, Action.fillable hgenerate⟩

/-- **Where the schema that callers see is the accepted one**: for every tool of a run, whatever
overrides were registered. -/
theorem run_schema :
    ∀ tagged ∈ ((Repository.new digest toolType lookup policy).run calls).1.catalog.specs,
      (tagged.spec.Placed ↔ ∀ parameters, tagged.spec.Conforms parameters →
        ∀ tool name, tagged.spec.instantiate parameters ≠ .error (.unknownParameter tool name)) ∧
      (tagged.spec.Placed → tagged.spec.Demanding →
        ∀ parameters, tagged.spec.Conforms parameters →
          ∃ action, tagged.spec.instantiate parameters = .ok action) ∧
      (tagged.spec.override.bind Override.parameters = none →
        tagged.spec.Placed ∧ tagged.spec.Demanding) := by
  intro tagged htagged
  obtain ⟨hnames, hfillable⟩ := names_and_fillable_run digest toolType lookup policy calls htagged
  exact ⟨Spec.placed_iff hfillable,
    fun hplaced hdemanding _ ↦ Spec.Conforms.exists_instantiate hnames hfillable hplaced hdemanding,
    Spec.placed_and_demanding hnames⟩

end Runs

/-- An action with one reference. -/
def prompting : Action := ⟨"prompt", ⟨[("text", .reference "v")], by decide⟩⟩

/-- The tool of the action under an override. -/
def promptingTool (override : Override) : TaggedSpec where
  toolType := "tools"
  spec :=
    { definition := ⟨"prompt", "prompt", ⟨[("text", ⟨true, "text", .string⟩)], by decide⟩, .string⟩
      override := some override
      metadata := ⟨prompting, ⟨[("text", [.key "text"])], by decide⟩⟩ }

/-- An override that describes the parameter in other words. -/
def rewording : Override :=
  ⟨none, none, some ⟨[("text", ⟨true, "What to ask", .string⟩)], by decide⟩, none⟩

/-- An override that makes the parameter optional and shows another one. -/
def extending : Override :=
  ⟨none, none,
    some ⟨[("extra", ⟨false, "", .string⟩), ("text", ⟨false, "", .string⟩)], by decide⟩, none⟩

theorem specs_rewording :
    ((Repository.new id "tools" ∅ .fallback).run
      [.overrideFor prompting rewording, .add prompting]).1.catalog.specs =
        [promptingTool rewording] := by
  have h : Distinguishes id ∅ .fallback [.overrideFor prompting rewording, .add prompting] :=
    ⟨by decide, Function.injective_id.injOn⟩
  obtain ⟨htype, htools⟩ := tools_run h "tools"
  rw [Repository.catalog, Repository.list, htype, htools]
  rfl

theorem specs_extending :
    ((Repository.new id "tools" ∅ .fallback).run
      [.overrideFor prompting extending, .add prompting]).1.catalog.specs =
        [promptingTool extending] := by
  have h : Distinguishes id ∅ .fallback [.overrideFor prompting extending, .add prompting] :=
    ⟨by decide, Function.injective_id.injOn⟩
  obtain ⟨htype, htools⟩ := tools_run h "tools"
  rw [Repository.catalog, Repository.list, htype, htools]
  rfl

/-- The reworded tool accepts a call by its schema. -/
theorem run_schema_rewording :
    promptingTool rewording ∈ ((Repository.new id "tools" ∅ .fallback).run
        [.overrideFor prompting rewording, .add prompting]).1.catalog.specs ∧
      ∃ action, (promptingTool rewording).spec.instantiate
        ⟨[("text", .string "Ready?")], by decide⟩ = .ok action := by
  have hmem := specs_rewording ▸ List.mem_singleton_self (promptingTool rewording)
  obtain ⟨-, haccepted, -⟩ := run_schema id "tools" ∅ .fallback _ _ hmem
  have hplaced : ∀ name ∈ ["text"], name ∈ ["text"] := fun _ hname ↦ hname
  have hconforms : (promptingTool rewording).spec.Conforms
      ⟨[("text", .string "Ready?")], by decide⟩ := ⟨hplaced, hplaced⟩
  exact ⟨hmem, haccepted hplaced hplaced _ hconforms⟩

/-- The extended tool refuses calls by its schema: one for the parameter without a place, and one
for the parameter that is optional only to callers. -/
theorem run_schema_extending :
    promptingTool extending ∈ ((Repository.new id "tools" ∅ .fallback).run
        [.overrideFor prompting extending, .add prompting]).1.catalog.specs ∧
      (∃ parameters, (promptingTool extending).spec.Conforms parameters ∧
        (promptingTool extending).spec.instantiate parameters =
          .error (.unknownParameter "prompt" "extra")) ∧
      ∃ parameters, (promptingTool extending).spec.Conforms parameters ∧
        (promptingTool extending).spec.instantiate parameters =
          .error (.missingParameter "prompt" "text") := by
  have hmem := specs_extending ▸ List.mem_singleton_self (promptingTool extending)
  have hnone : (promptingTool extending).spec.effectiveDefinition.requiredNames = [] := rfl
  have hgiven (keys : List String) :
      ∀ name ∈ (promptingTool extending).spec.effectiveDefinition.requiredNames, name ∈ keys :=
    fun name hname ↦ absurd (hnone ▸ hname) List.not_mem_nil
  refine ⟨hmem, ⟨⟨[("extra", .null), ("text", .null)], by decide⟩, ⟨?_, hgiven _⟩, rfl⟩,
    ⟨∅, ⟨?_, hgiven _⟩, rfl⟩⟩
  · exact fun name hname ↦ hname
  · exact fun name hname ↦ absurd hname List.not_mem_nil

end ActionTools
