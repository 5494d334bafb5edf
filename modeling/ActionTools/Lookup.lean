import ActionTools.Error
import ActionTools.Action

/-!
# Definitions of actions and app intents

Descriptions of tools come from two tables: the definitions of the built-in actions by identifier,
and the definitions of the intents that applications offer, by bundle and intent identifier.
`Lookup` holds both. A table is loaded from a JSON mapping; an entry that does not have the shape of
a definition is passed over, and the number of entries taken is returned with the tables.
-/

namespace ActionTools

/-- What an action says about itself. -/
structure ActionDescription where
  summary : Option String
  note : Option String
  deriving DecidableEq

namespace ActionDescription

/-- A description as a value. -/
def json (description : ActionDescription) : Json :=
  .object
    [("DescriptionSummary", .ofOption .string description.summary),
      ("DescriptionNote", .ofOption .string description.note)]

/-- Reads a description. -/
def ofDocument? (document : Document) : Option ActionDescription := do
  let fields ← document.fields? ["DescriptionSummary", "DescriptionNote"]
  let summary ← fields.optional "DescriptionSummary" Document.string?
  let note ← fields.optional "DescriptionNote" Document.string?
  some ⟨summary, note⟩

end ActionDescription

/-- The definition of one parameter of a built-in action. -/
structure ParameterDefinition where
  key : String
  className : Option String
  label : Option String
  description : Option String
  defaultValue : Option Tree
  deriving DecidableEq

namespace ParameterDefinition

/-- A parameter definition as a value. -/
def json (definition : ParameterDefinition) : Json :=
  .object
    [("Key", .string definition.key), ("Class", .ofOption .string definition.className),
      ("Label", .ofOption .string definition.label),
      ("Description", .ofOption .string definition.description),
      ("DefaultValue", .ofOption Tree.json definition.defaultValue)]

/-- Reads a parameter definition. -/
def ofDocument? (document : Document) : Option ParameterDefinition := do
  let fields ← document.fields? ["Key", "Class", "Label", "Description", "DefaultValue"]
  let key ← fields.required "Key" Document.string?
  let className ← fields.optional "Class" Document.string?
  let label ← fields.optional "Label" Document.string?
  let description ← fields.optional "Description" Document.string?
  let defaultValue ← fields.optional "DefaultValue" Document.tree?
  some ⟨key, className, label, description, defaultValue⟩

end ParameterDefinition

/-- What an action returns. -/
structure OutputDefinition where
  name : Option String
  types : Option (List String)
  deriving DecidableEq

namespace OutputDefinition

/-- An output as a value. -/
def json (output : OutputDefinition) : Json :=
  .object
    [("OutputName", .ofOption .string output.name),
      ("Types", .ofOption (fun types ↦ .array (types.map .string)) output.types)]

/-- Reads an output. -/
def ofDocument? (document : Document) : Option OutputDefinition := do
  let fields ← document.fields? ["OutputName", "Types"]
  let name ← fields.optional "OutputName" Document.string?
  let types ← fields.optional "Types" (Document.list? Document.string?)
  some ⟨name, types⟩

end OutputDefinition

/-- The definition of a built-in action. -/
structure ActionDefinition where
  name : Option String
  description : Option ActionDescription
  parameters : Option (List ParameterDefinition)
  output : Option OutputDefinition
  deriving DecidableEq

namespace ActionDefinition

/-- The first definition of a parameter. -/
def parameter? (definition : ActionDefinition) (key : String) : Option ParameterDefinition :=
  definition.parameters.bind fun parameters ↦ parameters.find? (·.key == key)

/-- An action definition as a value. -/
def json (definition : ActionDefinition) : Json :=
  .object
    [("Name", .ofOption .string definition.name),
      ("Description", .ofOption ActionDescription.json definition.description),
      ("Parameters",
        .ofOption (fun parameters ↦ .array (parameters.map ParameterDefinition.json))
          definition.parameters),
      ("Output", .ofOption OutputDefinition.json definition.output)]

/-- Reads an action definition. -/
def ofDocument? (document : Document) : Option ActionDefinition := do
  let fields ← document.fields? ["Name", "Description", "Parameters", "Output"]
  let name ← fields.optional "Name" Document.string?
  let description ← fields.optional "Description" ActionDescription.ofDocument?
  let parameters ← fields.optional "Parameters" (Document.list? ParameterDefinition.ofDocument?)
  let output ← fields.optional "Output" OutputDefinition.ofDocument?
  some ⟨name, description, parameters, output⟩

end ActionDefinition

/-- A text of an app intent, under the key by which it is localized. -/
structure LocalizedKey where
  key : String
  deriving DecidableEq

namespace LocalizedKey

/-- A localized text as a value. -/
def json (text : LocalizedKey) : Json := .object [("key", .string text.key)]

/-- Reads a localized text. -/
def ofDocument? (document : Document) : Option LocalizedKey := do
  let fields ← document.fields? ["key"]
  let key ← fields.required "key" Document.string?
  some ⟨key⟩

end LocalizedKey

/-- The definition of one parameter of an app intent. -/
structure IntentParameter where
  name : String
  title : LocalizedKey
  isOptional : Bool
  deriving DecidableEq

namespace IntentParameter

/-- An intent parameter as a value. -/
def json (parameter : IntentParameter) : Json :=
  .object
    [("name", .string parameter.name), ("title", parameter.title.json),
      ("isOptional", .bool parameter.isOptional)]

/-- Reads an intent parameter. -/
def ofDocument? (document : Document) : Option IntentParameter := do
  let fields ← document.fields? ["name", "title", "isOptional"]
  let name ← fields.required "name" Document.string?
  let title ← fields.required "title" LocalizedKey.ofDocument?
  let isOptional ← fields.required "isOptional" Document.bool?
  some ⟨name, title, isOptional⟩

end IntentParameter

/-- What an app intent says about itself. -/
structure IntentDescription where
  text : LocalizedKey
  deriving DecidableEq

namespace IntentDescription

/-- An intent description as a value. -/
def json (description : IntentDescription) : Json :=
  .object [("descriptionText", description.text.json)]

/-- Reads an intent description. -/
def ofDocument? (document : Document) : Option IntentDescription := do
  let fields ← document.fields? ["descriptionText"]
  let text ← fields.required "descriptionText" LocalizedKey.ofDocument?
  some ⟨text⟩

end IntentDescription

/-- The definition of an app intent. -/
structure IntentDefinition where
  identifier : String
  title : LocalizedKey
  parameters : Option (List IntentParameter)
  description : Option IntentDescription
  deriving DecidableEq

namespace IntentDefinition

/-- The first definition of a parameter. -/
def parameter? (definition : IntentDefinition) (name : String) : Option IntentParameter :=
  definition.parameters.bind fun parameters ↦ parameters.find? (·.name == name)

/-- The text of the description. -/
def description? (definition : IntentDefinition) : Option String :=
  definition.description.map fun description ↦ description.text.key

/-- An intent definition as a value. -/
def json (definition : IntentDefinition) : Json :=
  .object
    [("identifier", .string definition.identifier), ("title", definition.title.json),
      ("parameters",
        .ofOption (fun parameters ↦ .array (parameters.map IntentParameter.json))
          definition.parameters),
      ("descriptionMetadata", .ofOption IntentDescription.json definition.description)]

/-- Reads an intent definition. -/
def ofDocument? (document : Document) : Option IntentDefinition := do
  let fields ← document.fields? ["identifier", "title", "parameters", "descriptionMetadata"]
  let identifier ← fields.required "identifier" Document.string?
  let title ← fields.required "title" LocalizedKey.ofDocument?
  let parameters ← fields.optional "parameters" (Document.list? IntentParameter.ofDocument?)
  let description ← fields.optional "descriptionMetadata" IntentDescription.ofDocument?
  some ⟨identifier, title, parameters, description⟩

end IntentDefinition

/-! ### The two tables -/

/-- The definitions by which tools are described. -/
structure Lookup where
  /-- Built-in actions by identifier. -/
  actions : NameMap ActionDefinition
  /-- The intents of each bundle by identifier. -/
  bundles : NameMap (NameMap IntentDefinition)
  deriving DecidableEq

namespace Lookup

/-- No definitions. -/
def empty : Lookup := ⟨∅, ∅⟩

instance : EmptyCollection Lookup := ⟨empty⟩

instance : Inhabited Lookup := ⟨empty⟩

/-- The definition of a built-in action. -/
def action? (lookup : Lookup) (identifier : String) : Option ActionDefinition :=
  lookup.actions.get? identifier

/-- The definition of an intent of a bundle. -/
def intent? (lookup : Lookup) (bundle intent : String) : Option IntentDefinition :=
  (lookup.bundles.get? bundle).bind fun intents ↦ intents.get? intent

/-- Reads the intents of a bundle. -/
def bundle? (document : Document) : Option (NameMap IntentDefinition) := do
  let fields ← document.fields? ["actions"]
  fields.withDefault "actions" ∅ (Document.nameMap? IntentDefinition.ofDocument?)

/-- The entries of a table, when its text is a mapping. -/
def table? (text : String) : Except Failure (List (String × Document)) :=
  match (Document.parse? text).bind Document.mapping? with
  | some table => .ok (table.trees.map fun entry ↦ (entry.1, entry.2.document))
  | none => .error .invalidJson

/-- The tables with the action definitions of a text added, and how many those are. -/
def loadActions (lookup : Lookup) (text : String) : Except Failure (Lookup × Nat) := do
  let entries ← table? text
  let definitions := entries.filterMap fun entry ↦
    (ActionDefinition.ofDocument? entry.2).map fun definition ↦ (entry.1, definition)
  let actions := definitions.foldl (fun map entry ↦ map.insert entry.1 entry.2) lookup.actions
  pure ({ lookup with actions }, definitions.length)

/-- The tables with the bundles of a text added, and how many intents those have. A bundle that is
there already is replaced as a whole. -/
def loadIntents (lookup : Lookup) (text : String) : Except Failure (Lookup × Nat) := do
  let entries ← table? text
  let added := entries.filterMap fun entry ↦
    (bundle? entry.2).map fun intents ↦ (entry.1, intents)
  let bundles := added.foldl (fun map entry ↦ map.insert entry.1 entry.2) lookup.bundles
  pure ({ lookup with bundles }, added.foldr (fun entry others ↦ entry.2.size + others) 0)

/-- The number of built-in actions defined. -/
def actionCount (lookup : Lookup) : Nat := lookup.actions.size

end Lookup

end ActionTools
