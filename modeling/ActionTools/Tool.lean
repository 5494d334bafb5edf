import ActionTools.Action
import ActionTools.Path

/-!
# Tools

A tool is a flat list of named parameters in front of an action. Its `Definition` is what a caller
sees, its `Metadata` — the action as a template, and the place of each parameter in it — what
filling it needs. An `Override` replaces some fields of the definition; merging overrides lets the
later one win field by field.

A `Spec` in a catalog is tagged with the collection it belongs to (`TaggedSpec`), in one flat
mapping. A reader of such a mapping holds its fields before it knows their meaning, and the held
form lets an empty mapping stand for the `null` of a named choice; hence the flag `held` of the
readers here.
-/

namespace ActionTools

/-- The types a parameter can have. -/
inductive ScalarType where
  | string
  | number
  | boolean
  | object
  deriving DecidableEq

namespace ScalarType

instance : Inhabited ScalarType := ⟨string⟩

/-- The name of a type. -/
def name : ScalarType → String
  | string => "string"
  | number => "number"
  | boolean => "boolean"
  | object => "object"

/-- The type of a name. -/
def ofName? : String → Option ScalarType
  | "string" => some string
  | "number" => some number
  | "boolean" => some boolean
  | "object" => some object
  | _ => none

/-- A type as a value. -/
def json (type : ScalarType) : Json := .string type.name

/-- Reads a type. -/
def ofDocument? (held : Bool) (document : Document) : Option ScalarType :=
  (document.name? held).bind ofName?

end ScalarType

/-- What a caller learns about one parameter. -/
structure ParameterSpec where
  required : Bool
  description : String
  type : ScalarType
  deriving DecidableEq

namespace ParameterSpec

/-- A parameter as a value. -/
def json (parameter : ParameterSpec) : Json :=
  .object
    [("required", .bool parameter.required), ("description", .string parameter.description),
      ("type", parameter.type.json)]

/-- Reads a parameter. -/
def ofDocument? (held : Bool) (document : Document) : Option ParameterSpec := do
  let fields ← document.fields? ["required", "description", "type"]
  let required ← fields.required "required" Document.bool?
  let description ← fields.required "description" Document.string?
  let type ← fields.required "type" (ScalarType.ofDocument? held)
  some ⟨required, description, type⟩

end ParameterSpec

/-- The parameters of a tool by name. -/
abbrev Parameters := NameMap ParameterSpec

namespace Parameters

/-- Parameters as a value. -/
def json (parameters : Parameters) : Json := .ofNameMap ParameterSpec.json parameters

/-- Reads parameters. -/
def ofDocument? (held : Bool) : Document → Option Parameters :=
  Document.nameMap? (ParameterSpec.ofDocument? held)

end Parameters

/-- What a caller sees of a tool. -/
structure Definition where
  name : String
  description : String
  parameters : Parameters
  responseType : ScalarType
  deriving DecidableEq

namespace Definition

/-- The names of the fields. -/
def fieldNames : List String := ["name", "description", "parameters", "responseType"]

/-- A definition as a value. -/
def json (definition : Definition) : Json :=
  .object
    [("name", .string definition.name), ("description", .string definition.description),
      ("parameters", definition.parameters.json), ("responseType", definition.responseType.json)]

/-- Reads a definition. -/
def ofDocument? (held : Bool) (document : Document) : Option Definition := do
  let fields ← document.fields? fieldNames
  let name ← fields.required "name" Document.string?
  let description ← fields.required "description" Document.string?
  let parameters ← fields.required "parameters" (Parameters.ofDocument? held)
  let responseType ← fields.required "responseType" (ScalarType.ofDocument? held)
  some ⟨name, description, parameters, responseType⟩

end Definition

/-- A definition some of whose fields are left open. -/
structure Override where
  name : Option String
  description : Option String
  parameters : Option Parameters
  responseType : Option ScalarType
  deriving DecidableEq

namespace Override

/-- The override that sets nothing. -/
def empty : Override := ⟨none, none, none, none⟩

instance : EmptyCollection Override := ⟨empty⟩

instance : Inhabited Override := ⟨empty⟩

/-- Whether the override sets nothing. -/
def isEmpty (override : Override) : Bool :=
  override.name.isNone && override.description.isNone && override.parameters.isNone &&
    override.responseType.isNone

/-- Both overrides in one, the later winning where both set a field. -/
def merge (earlier later : Override) : Override where
  name := later.name <|> earlier.name
  description := later.description <|> earlier.description
  parameters := later.parameters <|> earlier.parameters
  responseType := later.responseType <|> earlier.responseType

/-- The definition with the fields that the override sets. -/
def apply (override : Override) (definition : Definition) : Definition where
  name := override.name.getD definition.name
  description := override.description.getD definition.description
  parameters := override.parameters.getD definition.parameters
  responseType := override.responseType.getD definition.responseType

/-- An override as a value; fields left open are left out. -/
def json (override : Override) : Json :=
  .object
    (Json.optionalField "name" .string override.name ++
      Json.optionalField "description" .string override.description ++
      Json.optionalField "parameters" Parameters.json override.parameters ++
      Json.optionalField "responseType" ScalarType.json override.responseType)

/-- Reads an override. -/
def ofDocument? (held : Bool) (document : Document) : Option Override := do
  let fields ← document.fields? Definition.fieldNames
  let name ← fields.optional "name" Document.string?
  let description ← fields.optional "description" Document.string?
  let parameters ← fields.optional "parameters" (Parameters.ofDocument? held)
  let responseType ← fields.optional "responseType" (ScalarType.ofDocument? held)
  some ⟨name, description, parameters, responseType⟩

end Override

/-- What filling a tool's template needs. -/
structure Metadata where
  template : Action
  /-- The place in the template of each parameter's reference. -/
  paths : NameMap Path
  deriving DecidableEq

namespace Metadata

/-- Equality as data. -/
def equal (a b : Metadata) : Bool := a.template.equal b.template && a.paths == b.paths

/-- Metadata as a value. -/
def json (metadata : Metadata) : Json :=
  .object
    [("template", metadata.template.json),
      ("parameterIdToTemplatePath", .ofNameMap Path.json metadata.paths)]

/-- Reads metadata. -/
def ofDocument? (document : Document) : Option Metadata := do
  let fields ← document.fields? ["template", "parameterIdToTemplatePath"]
  let template ← fields.required "template" Action.ofDocument?
  let paths ← fields.required "parameterIdToTemplatePath" (Document.nameMap? Path.ofDocument?)
  some ⟨template, paths⟩

end Metadata

/-- A tool as callers see it: its definition as generated, and an override. -/
structure Interface where
  definition : Definition
  override : Option Override
  deriving DecidableEq

namespace Interface

/-- The interface with another override merged into its own. -/
def mergeOverride (interface : Interface) (extra : Override) : Interface :=
  { interface with override := some ((interface.override.getD ∅).merge extra) }

/-- The definition that a caller sees. -/
def effectiveDefinition (interface : Interface) : Definition :=
  match interface.override with
  | some override => override.apply interface.definition
  | none => interface.definition

/-- The name that a caller sees. -/
def effectiveName (interface : Interface) : String :=
  (interface.override.bind Override.name).getD interface.definition.name

/-- The entries of an interface and the metadata behind it, in one mapping. -/
def entriesWith (interface : Interface) (metadata : Json) : List (String × Json) :=
  [("definition", interface.definition.json)] ++
    Json.optionalField "override" Override.json interface.override ++ [("metadata", metadata)]

/-- An interface with the metadata behind it and the tag of their collection, in one mapping. -/
def taggedJson (interface : Interface) (toolType : String) (metadata : Json) : Json :=
  .object (("type", .string toolType) :: interface.entriesWith metadata)

end Interface

/-- A tool: its interface, and what filling its template needs. -/
structure Spec extends Interface where
  metadata : Metadata
  deriving DecidableEq

namespace Spec

/-- The tool with another override merged into its own. -/
def mergeOverride (spec : Spec) (extra : Override) : Spec :=
  { spec with toInterface := spec.toInterface.mergeOverride extra }

/-- Equality as data. -/
def equal (a b : Spec) : Bool :=
  a.definition == b.definition && a.override == b.override && a.metadata.equal b.metadata

/-- The names of the fields. -/
def fieldNames : List String := ["definition", "override", "metadata"]

/-- A tool as a value. -/
def json (spec : Spec) : Json := .object (spec.entriesWith spec.metadata.json)

/-- Reads a tool from its fields. -/
def ofFields? (held : Bool) (fields : Document.Fields) : Option Spec := do
  let definition ← fields.required "definition" (Definition.ofDocument? held)
  let override ← fields.optional "override" (Override.ofDocument? held)
  let metadata ← fields.required "metadata" Metadata.ofDocument?
  some ⟨⟨definition, override⟩, metadata⟩

/-- Reads a tool. -/
def ofDocument? (document : Document) : Option Spec :=
  (document.fields? fieldNames).bind (ofFields? false)

end Spec

/-- A tool with the name of the collection it was emitted from. -/
structure TaggedSpec where
  toolType : String
  spec : Spec
  deriving DecidableEq

namespace TaggedSpec

/-- Equality as data. -/
def equal (a b : TaggedSpec) : Bool := a.toolType == b.toolType && a.spec.equal b.spec

/-- A tagged tool as a value: the tag and the tool's fields in one mapping. -/
def json (tagged : TaggedSpec) : Json :=
  tagged.spec.taggedJson tagged.toolType tagged.spec.metadata.json

/-- Reads a tagged tool, which has to be a mapping. All of it is read, unknown fields included. -/
def ofDocument? (document : Document) : Option TaggedSpec :=
  match document with
  | .object _ => do
    let _ ← document.json?
    let fields ← document.fields? ("type" :: Spec.fieldNames)
    let toolType ← fields.required "type" Document.string?
    let spec ← Spec.ofFields? true fields
    some ⟨toolType, spec⟩
  | _ => none

end TaggedSpec

end ActionTools
