import ActionTools.Proofs.Json.Record
import ActionTools.Proofs.Repository.Keys
import ActionTools.Proofs.Workflow

/-!
# Reading what tools are written as

Each record in a tagged tool is read back from what it is written as, whether its fields are held
first or not. Of the fields only an index of a path can be written as another one: the greatest
index is written for all beyond it. So a tool is read back as long as its metadata have no such
index (`TaggedSpec.ofDocument?_document`).

What a tool is written as is nested two levels deeper than the parameters of its template, or rather
three: the tool, its metadata, the action (`TaggedSpec.depth_json`).
-/

namespace ActionTools

open Document

namespace ScalarType

/-- A type is read back from its name, held or not. -/
@[simp] theorem ofDocument?_document (held : Bool) (type : ScalarType) :
    ofDocument? held type.json.document = some type := by
  cases type with
  | string => rfl
  | number => rfl
  | boolean => rfl
  | object => rfl

end ScalarType

namespace ParameterSpec

theorem distinct_json (parameter : ParameterSpec) : parameter.json.Distinct := by
  simp [json, ScalarType.json]

theorem depth_json (parameter : ParameterSpec) : parameter.json.depth = 1 := rfl

/-- A parameter holds no doubles. -/
theorem readsBack_json (parameter : ParameterSpec) : parameter.json.ReadsBack :=
  fun _ h ↦ absurd h List.not_mem_nil

/-- **A parameter is read back**: all three fields are in what is written. -/
@[simp] theorem ofDocument?_document (held : Bool) (parameter : ParameterSpec) :
    ofDocument? held parameter.json.document = some parameter := by
  have hfields : parameter.json.document.fields? ["required", "description", "type"] =
      some [("required", .bool parameter.required), ("description", .string parameter.description),
        ("type", parameter.type.json.document)] := rfl
  rw [ofDocument?, hfields]
  show (ScalarType.ofDocument? held parameter.type.json.document).bind (fun type ↦
    some (⟨parameter.required, parameter.description, type⟩ : ParameterSpec)) = _
  rw [ScalarType.ofDocument?_document]
  rfl

end ParameterSpec

namespace Parameters

theorem distinct_json (parameters : Parameters) : parameters.json.Distinct :=
  Json.distinct_ofNameMap ParameterSpec.distinct_json parameters

/-- Parameters add one level to their fields. -/
theorem depth_json_le (parameters : Parameters) : parameters.json.depth ≤ 2 :=
  Json.depth_ofNameMap_le (fun parameter ↦ parameter.depth_json.le) parameters

/-- Parameters hold no doubles, since none of them does. -/
theorem readsBack_json (parameters : Parameters) : parameters.json.ReadsBack :=
  Json.readsBack_ofNameMap ParameterSpec.readsBack_json parameters

/-- **Parameters are read back**, name by name. -/
@[simp] theorem ofDocument?_document (held : Bool) (parameters : Parameters) :
    ofDocument? held parameters.json.document = some parameters :=
  nameMap?_document fun entry _ ↦ entry.2.ofDocument?_document held

end Parameters

namespace Definition

/-- A definition is written with distinct field names. -/
theorem distinct_json (definition : Definition) : definition.json.Distinct := by
  simp [json, ScalarType.json, definition.parameters.distinct_json]

/-- A definition is three levels deep at most, whatever its parameters are. -/
theorem depth_json_le (definition : Definition) : definition.json.depth ≤ 3 := by
  have hparameters := definition.parameters.depth_json_le
  simp only [json, ScalarType.json, Json.depth, Json.depthEntries]
  omega

/-- A definition holds no doubles. -/
theorem readsBack_json (definition : Definition) : definition.json.ReadsBack := by
  have hparameters := definition.parameters.readsBack_json
  simpa [Json.ReadsBack, json, ScalarType.json, Json.doubles, Json.doublesEntries] using hparameters

/-- **A definition is read back**, with all its parameters. -/
@[simp] theorem ofDocument?_document (held : Bool) (definition : Definition) :
    ofDocument? held definition.json.document = some definition := by
  have hfields : definition.json.document.fields? fieldNames =
      some [("name", .string definition.name), ("description", .string definition.description),
        ("parameters", definition.parameters.json.document),
        ("responseType", definition.responseType.json.document)] := rfl
  rw [ofDocument?, hfields]
  show (Parameters.ofDocument? held definition.parameters.json.document).bind (fun parameters ↦
    (ScalarType.ofDocument? held definition.responseType.json.document).bind fun responseType ↦
      some (⟨definition.name, definition.description, parameters, responseType⟩ : Definition)) = _
  rw [Parameters.ofDocument?_document, ScalarType.ofDocument?_document]
  rfl

end Definition

namespace Override

/-- What an override is written as holds the fields that it sets. -/
def entries (override : Override) : Entries Json :=
  Json.optionalField "name" .string override.name ++
    Json.optionalField "description" .string override.description ++
    Json.optionalField "parameters" Parameters.json override.parameters ++
    Json.optionalField "responseType" ScalarType.json override.responseType

theorem json_eq (override : Override) : override.json = .object override.entries := rfl

/-- An override writes the fields it has, in the order of a definition. -/
theorem keys_entries_sublist (override : Override) :
    (Entries.keys override.entries).Sublist Definition.fieldNames := by
  simp only [entries, Entries.keys_append]
  exact (((keys_optionalField_sublist ..).append (keys_optionalField_sublist ..)).append
    (keys_optionalField_sublist ..)).append (keys_optionalField_sublist ..)

/-- What an override writes are texts and parameters. -/
theorem mem_entries {override : Override} {entry : String × Json} (h : entry ∈ override.entries) :
    (∃ text, entry.2 = .string text) ∨ ∃ parameters : Parameters, entry.2 = parameters.json := by
  simp only [entries, List.mem_append] at h
  rcases h with ((h | h) | h) | h
  · obtain ⟨name, -, rfl⟩ := mem_optionalField h
    exact .inl ⟨name, rfl⟩
  · obtain ⟨description, -, rfl⟩ := mem_optionalField h
    exact .inl ⟨description, rfl⟩
  · obtain ⟨parameters, -, rfl⟩ := mem_optionalField h
    exact .inr ⟨parameters, rfl⟩
  · obtain ⟨type, -, rfl⟩ := mem_optionalField h
    exact .inl ⟨type.name, rfl⟩

/-- An override is written with distinct field names, whichever fields it has. -/
theorem distinct_json (override : Override) : override.json.Distinct := by
  refine Json.distinct_object.2 ⟨override.keys_entries_sublist.nodup (by decide), fun entry h ↦ ?_⟩
  rcases mem_entries h with ⟨text, htext⟩ | ⟨parameters, hparameters⟩
  · exact htext ▸ Json.distinct_string text
  · exact hparameters ▸ parameters.distinct_json

/-- An override is no deeper than the definition it changes. -/
theorem depth_json_le (override : Override) : override.json.depth ≤ 3 := by
  refine Json.depth_object_le_iff.2 fun entry h ↦ ?_
  rcases mem_entries h with ⟨text, htext⟩ | ⟨parameters, hparameters⟩
  · exact htext ▸ Nat.zero_le 2
  · exact hparameters ▸ parameters.depth_json_le

/-- An override holds no doubles. -/
theorem readsBack_json (override : Override) : override.json.ReadsBack := by
  refine Json.readsBack_object.2 fun entry h ↦ ?_
  rcases mem_entries h with ⟨text, htext⟩ | ⟨parameters, hparameters⟩
  · exact htext ▸ fun _ h ↦ absurd h List.not_mem_nil
  · exact hparameters ▸ parameters.readsBack_json

/-- **An override is read back**: a field that is not there is one that is not set. -/
@[simp] theorem ofDocument?_document (held : Bool) (override : Override) :
    ofDocument? held override.json.document = some override := by
  have hname : override.entries.lookup "name" = override.name.map .string := by
    simp [entries, List.lookup_append, lookup_optionalField]
  have hdescription : override.entries.lookup "description" = override.description.map .string := by
    simp [entries, List.lookup_append, lookup_optionalField]
  have hparameters : override.entries.lookup "parameters" =
      override.parameters.map Parameters.json := by
    simp [entries, List.lookup_append, lookup_optionalField]
  have htype : override.entries.lookup "responseType" =
      override.responseType.map ScalarType.json := by
    simp [entries, List.lookup_append, lookup_optionalField]
  rw [ofDocument?, json_eq, fields?_document (by decide) override.keys_entries_sublist]
  simp only [Option.bind_eq_bind, Option.bind_some]
  rw [Fields.optional_document hname (fun _ ↦ rfl) rfl,
    Fields.optional_document hdescription (fun _ ↦ rfl) rfl,
    Fields.optional_document hparameters (Parameters.ofDocument?_document held) rfl,
    Fields.optional_document htype (ScalarType.ofDocument?_document held) rfl]
  rfl

end Override

namespace Segment

/-- A segment is read back when its index is one that can be written. -/
theorem ofDocument?_document {segment : Segment} (h : segment.Indexable) :
    ofDocument? segment.json.document = some segment := by
  cases segment with
  | key name => rfl
  | index value =>
    have hmin : min value 0xFFFFFFFFFFFFFFFF = value := Nat.min_eq_left (Nat.le_of_lt_succ h)
    simp [json, Json.ofNat, Number.ofNat, Json.document, ofDocument?, Number.nat?, hmin]

end Segment

namespace Path

/-- **A path is read back**, segment by segment. -/
theorem ofDocument?_document {path : Path} (h : ∀ segment ∈ path, segment.Indexable) :
    ofDocument? path.json.document = some path :=
  list?_document fun segment hsegment ↦ Segment.ofDocument?_document (h segment hsegment)

/-- A path is a sequence of texts and numbers. -/
theorem depth_json_le (path : Path) : path.json.depth ≤ 1 := by
  refine Json.depth_array_le_iff.2 fun item hitem ↦ ?_
  obtain ⟨segment, -, rfl⟩ := List.mem_map.1 hitem
  cases segment with
  | index value => exact Nat.le_refl 0
  | key name => exact Nat.le_refl 0

/-- A path holds no doubles: its numbers are whole. -/
theorem readsBack_json (path : Path) : path.json.ReadsBack := by
  refine Json.readsBack_array.2 fun item hitem ↦ ?_
  obtain ⟨segment, -, rfl⟩ := List.mem_map.1 hitem
  cases segment with
  | index value => exact fun _ h ↦ absurd h List.not_mem_nil
  | key name => exact fun _ h ↦ absurd h List.not_mem_nil

end Path

namespace Metadata

/-- How deep the parameters of the template are nested. -/
def parametersDepth (metadata : Metadata) : Nat := metadata.template.parameters.json.depth

/-- Metadata puts two levels around the parameters of its template, and the places are no deeper
than that. -/
theorem depth_json (metadata : Metadata) :
    metadata.json.depth = metadata.parametersDepth + 2 := by
  have hpaths : (Json.ofNameMap Path.json metadata.paths).depth ≤ 2 :=
    Json.depth_ofNameMap_le Path.depth_json_le metadata.paths
  have hparameters : 0 < metadata.template.parameters.json.depth := Nat.succ_pos _
  simp only [json, Action.json, Json.depth, Json.depthEntries, parametersDepth]
  omega

/-- All doubles in metadata are in the parameters of its template. -/
theorem readsBack_json {metadata : Metadata}
    (h : metadata.template.parameters.json.ReadsBack) : metadata.json.ReadsBack := by
  have hpaths : (Json.ofNameMap Path.json metadata.paths).ReadsBack :=
    Json.readsBack_ofNameMap Path.readsBack_json metadata.paths
  simp only [Json.ReadsBack, json, Action.json, Json.doubles, Json.doublesEntries, List.nil_append,
    List.append_nil, List.mem_append]
  rintro x (hx | hx)
  · exact h x hx
  · exact hpaths x hx

/-- **Metadata is read back**: the template, and the place of each parameter. -/
theorem ofDocument?_document {metadata : Metadata} (h : metadata.Indexable) :
    ofDocument? metadata.json.document = some metadata := by
  have hfields : metadata.json.document.fields? ["template", "parameterIdToTemplatePath"] =
      some [("template", metadata.template.json.document),
        ("parameterIdToTemplatePath", (Json.ofNameMap Path.json metadata.paths).document)] := rfl
  have hpaths : nameMap? Path.ofDocument? (Json.ofNameMap Path.json metadata.paths).document =
      some metadata.paths :=
    nameMap?_document fun entry hentry ↦ Path.ofDocument?_document (h entry hentry)
  rw [ofDocument?, hfields]
  show (Action.ofDocument? metadata.template.json.document).bind (fun template ↦
    (nameMap? Path.ofDocument? (Json.ofNameMap Path.json metadata.paths).document).bind fun paths ↦
      some (⟨template, paths⟩ : Metadata)) = _
  rw [Action.ofDocument?_document, hpaths]
  rfl

end Metadata

namespace TaggedSpec

/-- What a tagged tool is written as holds. -/
def entries (tagged : TaggedSpec) : Entries Json :=
  ("type", .string tagged.toolType) :: tagged.spec.entriesWith tagged.spec.metadata.json

theorem json_eq (tagged : TaggedSpec) : tagged.json = .object tagged.entries := rfl

/-- A tool writes the fields it has, its tag first. -/
theorem keys_entries_sublist (tagged : TaggedSpec) :
    (Entries.keys tagged.entries).Sublist ("type" :: Spec.fieldNames) := by
  rw [entries, Entries.keys_cons, Interface.entriesWith, Entries.keys_append, Entries.keys_append]
  exact (((List.Sublist.refl ["definition"]).append (keys_optionalField_sublist ..)).append
    (List.Sublist.refl ["metadata"])).cons_cons _

/-- The values that a tool writes: its tag, its definition, its override if it has one, its
metadata. -/
theorem mem_entries {tagged : TaggedSpec} {entry : String × Json} (h : entry ∈ tagged.entries) :
    entry.2 = .string tagged.toolType ∨ entry.2 = tagged.spec.definition.json ∨
      (∃ override : Override, entry.2 = override.json) ∨
      entry.2 = tagged.spec.metadata.json := by
  simp only [entries, Interface.entriesWith, List.mem_cons, List.mem_append, List.not_mem_nil,
    or_false] at h
  rcases h with rfl | (rfl | h) | rfl
  · exact .inl rfl
  · exact .inr (.inl rfl)
  · obtain ⟨override, -, rfl⟩ := mem_optionalField h
    exact .inr (.inr (.inl ⟨override, rfl⟩))
  · exact .inr (.inr (.inr rfl))

/-- A tool is written with distinct field names, with or without an override. -/
theorem distinct_json (tagged : TaggedSpec) : tagged.json.Distinct := by
  refine Json.distinct_object.2 ⟨tagged.keys_entries_sublist.nodup (by decide), fun entry h ↦ ?_⟩
  rcases mem_entries h with heq | heq | ⟨override, heq⟩ | heq
  · exact heq ▸ Json.distinct_string _
  · exact heq ▸ tagged.spec.definition.distinct_json
  · exact heq ▸ override.distinct_json
  · exact heq ▸ tagged.spec.metadata.distinct_json

/-- All doubles in a tool are in the parameters of its template. -/
theorem readsBack_json {tagged : TaggedSpec}
    (h : tagged.spec.metadata.template.parameters.json.ReadsBack) : tagged.json.ReadsBack := by
  refine Json.readsBack_object.2 fun entry hentry ↦ ?_
  rcases mem_entries hentry with heq | heq | ⟨override, heq⟩ | heq
  · exact heq ▸ fun _ h ↦ absurd h List.not_mem_nil
  · exact heq ▸ tagged.spec.definition.readsBack_json
  · exact heq ▸ override.readsBack_json
  · exact heq ▸ Metadata.readsBack_json h

/-- **A tagged tool is nested three levels deeper than the parameters of its template**: around
these are the action, the metadata and the tool itself. -/
theorem depth_json (tagged : TaggedSpec) :
    tagged.json.depth = tagged.spec.metadata.parametersDepth + 3 := by
  obtain ⟨toolType, ⟨⟨definition, override⟩, metadata⟩⟩ := tagged
  have hdefinition := definition.depth_json_le
  have hmetadata := metadata.depth_json
  have hparameters : 0 < metadata.parametersDepth := Nat.succ_pos _
  cases override with
  | none =>
    simp only [json_eq, entries, Interface.entriesWith, Json.optionalField, List.cons_append,
      List.nil_append, Json.depth, Json.depthEntries]
    omega
  | some override =>
    have hoverride := override.depth_json_le
    simp only [json_eq, entries, Interface.entriesWith, Json.optionalField, List.cons_append,
      List.nil_append, Json.depth, Json.depthEntries]
    omega

/-- **A tagged tool is read back from what it is written as.** -/
theorem ofDocument?_document {tagged : TaggedSpec} (h : tagged.spec.metadata.Indexable) :
    ofDocument? tagged.json.document = some tagged := by
  have htype : tagged.entries.lookup "type" = some (.string tagged.toolType) := rfl
  have hdefinition : tagged.entries.lookup "definition" = some tagged.spec.definition.json := rfl
  have hoverride : tagged.entries.lookup "override" = tagged.spec.override.map Override.json := by
    simp [entries, Interface.entriesWith, List.lookup_append, List.lookup_cons,
      lookup_optionalField]
  have hmetadata : tagged.entries.lookup "metadata" = some tagged.spec.metadata.json := by
    simp [entries, Interface.entriesWith, List.lookup_append, List.lookup_cons,
      lookup_optionalField]
  have hjson := json?_document tagged.distinct_json
  have hfields := fields?_document (by decide) tagged.keys_entries_sublist
  have hobject : tagged.json.document = .object (Json.documentEntries tagged.entries) := rfl
  rw [← json_eq, hobject] at hfields
  rw [hobject] at hjson ⊢
  simp only [ofDocument?, hjson, hfields, Spec.ofFields?, Option.bind_eq_bind, Option.bind_some]
  rw [Fields.required_document htype (string?_document _),
    Fields.required_document hdefinition (Definition.ofDocument?_document true _),
    Fields.optional_document hoverride (Override.ofDocument?_document true) rfl,
    Fields.required_document hmetadata (Metadata.ofDocument?_document h)]
  rfl

/-- A tagged tool is read only from what has a value. -/
theorem ofDocument?_eq_none {document : Document} (h : document.json? = none) :
    ofDocument? document = none := by
  cases document with
  | object entries =>
    rw [ofDocument?]
    simp only [h]
    rfl
  | _ => rfl

/-- A tagged tool that is read from its text is not nested too deep. -/
theorem depth_le_of_reread {tagged found : TaggedSpec} {depth : Nat} (hlimit : depth ≤ nestingLimit)
    (h : ofDocument? (tagged.json.reread depth) = some found) :
    depth + tagged.json.depth ≤ nestingLimit := by
  cases hjson : (tagged.json.reread depth).json? with
  | none =>
    rw [ofDocument?_eq_none hjson] at h
    cases h
  | some value => exact Json.depth_le_of_json? hlimit hjson

end TaggedSpec

end ActionTools
