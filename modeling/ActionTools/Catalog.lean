import ActionTools.Error
import ActionTools.Json.Printer
import ActionTools.Tool

/-!
# Catalogs

A catalog is the frozen list of tagged tools that a compilation emits. It is looked into by the name
a caller sees, the effective one, and of several tools with one name the first answers;
`Catalog.duplicateNames` lists the names under which some tool is hidden that way.

The text of a catalog is the sequence of its tagged tools. `Catalog.parse` reads what `Catalog.text`
writes, pretty or compact.
-/

namespace ActionTools

/-! ### Listings -/

namespace Definition

/-- The schema of a tool's parameters. -/
def inputSchema (definition : Definition) : Json :=
  let property (parameter : ParameterSpec) : Json :=
    .object [("type", parameter.type.json), ("description", .string parameter.description)]
  let required := definition.parameters.entries.filter fun entry ↦ entry.2.required
  .object
    [("type", .string "object"), ("properties", .ofNameMap property definition.parameters),
      ("required", .array (required.map fun entry ↦ .string entry.1))]

/-- A tool as clients list it. -/
def listing (definition : Definition) : Json :=
  .object
    [("name", .string definition.name), ("description", .string definition.description),
      ("inputSchema", definition.inputSchema)]

end Definition

/-! ### Catalogs -/

/-- The tools emitted together, in their order. -/
structure Catalog where
  specs : List TaggedSpec
  deriving DecidableEq

namespace Catalog

/-- The number of tools. -/
def size (catalog : Catalog) : Nat := catalog.specs.length

/-- Whether there are no tools. -/
def isEmpty (catalog : Catalog) : Bool := catalog.specs.isEmpty

/-- The first tool with an effective name. -/
def find? (catalog : Catalog) (name : String) : Option TaggedSpec :=
  catalog.specs.find? fun tagged ↦ tagged.spec.effectiveName == name

/-- The first tool with an effective name, which has to be there. -/
def get (catalog : Catalog) (name : String) : Except Failure TaggedSpec :=
  match catalog.find? name with
  | some tagged => .ok tagged
  | none => .error (.toolNotFound name)

/-- The effective names in the order of the tools. -/
def names (catalog : Catalog) : List String :=
  catalog.specs.map fun tagged ↦ tagged.spec.effectiveName

/-- The members of a list that are in `seen` or come earlier in the list. -/
def repeated (seen : List String) : List String → List String
  | [] => []
  | name :: rest =>
    if seen.contains name then name :: repeated seen rest else repeated (name :: seen) rest

/-- The effective names of more than one tool, least first. -/
def duplicateNames (catalog : Catalog) : List String :=
  (NameMap.ofList ((repeated [] catalog.names).map fun name ↦ (name, ()))).names

/-- What callers see of the tools. -/
def definitions (catalog : Catalog) : List Definition :=
  catalog.specs.map fun tagged ↦ tagged.spec.effectiveDefinition

/-- The tools as clients list them. -/
def listings (catalog : Catalog) : List Json := catalog.definitions.map Definition.listing

/-- Equality as data. -/
def equal (a b : Catalog) : Bool :=
  a.size == b.size && (a.specs.zip b.specs).all fun (first, second) ↦ first.equal second

/-! ### Text -/

/-- A catalog as a value. -/
def json (catalog : Catalog) : Json := .array (catalog.specs.map TaggedSpec.json)

/-- The text of a catalog. -/
def text (catalog : Catalog) (isPretty : Bool) : String := catalog.json.text isPretty

/-- Reads a catalog. -/
def ofDocument? (document : Document) : Option Catalog :=
  (document.list? TaggedSpec.ofDocument?).map Catalog.mk

/-- Reads the text of a catalog. -/
def parse (text : String) : Except Failure Catalog :=
  match (Document.parse? text).bind ofDocument? with
  | some catalog => .ok catalog
  | none => .error .invalidJson

end Catalog

end ActionTools
