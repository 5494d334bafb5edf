import ActionTools.Json.Reader
import ActionTools.NameMap

/-!
# Records in JSON documents

A record is written as a mapping of its field names. It may also be given as a sequence of its
fields in the order of their declaration, later ones left out. `Document.fields?` reads both forms
into the same list of known fields: unknown ones are skipped without being read, and a known one
that is given twice spoils the record.

What a field may hold is said by the reader passed to `required`, `withDefault` or `optional`. An
absent field is refused, gets its default or is `none`; for an optional field `null` is as good as
absence.
-/

namespace ActionTools

namespace Document

/-- The known fields of a record, under their names. -/
abbrev Fields := List (String × Document)

/-- The known fields of a document that is a record with the given field names. -/
def fields? (names : List String) : Document → Option Fields
  | .object entries =>
    let known := entries.filter fun entry ↦ names.contains entry.1
    if (Entries.keys known).Nodup then some known else none
  | .array items => if items.length ≤ names.length then some (names.zip items) else none
  | _ => none

namespace Fields

variable {α : Type}

/-- A field that has to be there. -/
def required (fields : Fields) (name : String) (read : Document → Option α) : Option α :=
  (fields.lookup name).bind read

/-- A field with a default for its absence. -/
def withDefault (fields : Fields) (name : String) (default : α) (read : Document → Option α) :
    Option α :=
  match fields.lookup name with
  | some document => read document
  | none => some default

/-- A field that may be absent or `null`. -/
def optional (fields : Fields) (name : String) (read : Document → Option α) :
    Option (Option α) :=
  match fields.lookup name with
  | none | some .null => some none
  | some document => (read document).map some

end Fields

/-! ### Readers of plain values -/

variable {α : Type}

/-- A text. -/
def string? : Document → Option String
  | .string value => some value
  | _ => none

/-- A truth value. -/
def bool? : Document → Option Bool
  | .bool value => some value
  | _ => none

/-- A natural number of 64 bits. -/
def nat? : Document → Option Nat
  | .number value => value.nat?
  | _ => none

/-- A natural number of 32 bits. -/
def uint32? (document : Document) : Option UInt32 :=
  document.nat?.bind fun n ↦ if n ≤ 0xFFFFFFFF then some (UInt32.ofNat n) else none

/-- A sequence of what `read` reads. -/
def list? (read : Document → Option α) : Document → Option (List α)
  | .array items => items.mapM read
  | _ => none

/-- A mapping of names to what `read` reads, a repeated name having its last value. -/
def nameMap? (read : Document → Option α) : Document → Option (NameMap α)
  | .object entries =>
    (entries.mapM fun entry ↦ (read entry.2).map fun value ↦ (entry.1, value)).map NameMap.ofList
  | _ => none

/-- A mapping of keys to trees. -/
def mapping? (document : Document) : Option Mapping :=
  document.tree?.bind Tree.mapping?

/-- A plain name: a text, or a mapping of the name to `null`. With `emptyForNull` an empty mapping
will do for that `null`. -/
def name? (emptyForNull : Bool) : Document → Option String
  | .string name => some name
  | .object [(name, .null)] => some name
  | .object [(name, .object [])] => if emptyForNull then some name else none
  | _ => none

end Document

/-! ### Writing -/

namespace Json

variable {α : Type}

/-- A value that may be missing, written as `null` when it is. -/
def ofOption (write : α → Json) : Option α → Json
  | some value => write value
  | none => .null

/-- A field that is left out when its value is missing. -/
def optionalField (name : String) (write : α → Json) (value : Option α) : List (String × Json) :=
  match value with
  | some value => [(name, write value)]
  | none => []

/-- A sorted map as a mapping in the order of its names. -/
def ofNameMap (write : α → Json) (map : NameMap α) : Json :=
  .object (map.entries.map fun entry ↦ (entry.1, write entry.2))

end Json

end ActionTools
