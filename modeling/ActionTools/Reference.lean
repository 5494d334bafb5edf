import ActionTools.Path
import ActionTools.Json.Tree

/-!
# Variable references

A placeholder in a parameter tree is a mapping tagged `Variable` that names a variable; other fields
do not matter. `Json.references` lists the places of all of them, depth first, in the order of
entries and items. A reference is a leaf: what is inside one is not looked at.

`Json.atPath?` follows the same kind of path, keys into mappings and indices into sequences, so that
"there is a reference at this path" can be said without the traversal.
-/

namespace ActionTools

/-- The tag of a variable reference. -/
def variableTag : String := "Variable"

/-- The field of a reference that holds the name of the variable. -/
def variableNameField : String := "VariableName"

namespace Json

/-- Whether a value is a variable reference. -/
def isReference (json : Json) : Bool :=
  (json.get? "Type").bind string? == some variableTag &&
    ((json.get? variableNameField).bind string?).isSome

mutual

/-- The places of the variable references in a value. -/
def references : Json → List Path
  | .array items => referencesInItems 0 items
  | .object entries =>
    if isReference (.object entries) then [[]] else referencesInEntries entries
  | _ => []

/-- The places of the references in the items of a sequence, the first having the given index. -/
def referencesInItems (index : Nat) : List Json → List Path
  | [] => []
  | item :: rest =>
    item.references.map (.index index :: ·) ++ referencesInItems (index + 1) rest

/-- The places of the references in the entries of a mapping. -/
def referencesInEntries : List (String × Json) → List Path
  | [] => []
  | (key, value) :: rest => value.references.map (.key key :: ·) ++ referencesInEntries rest

end

/-- The member at a segment: of a sequence by index, of a mapping by key. -/
def member? : Json → Segment → Option Json
  | .array items, .index index => items[index]?
  | .object entries, .key key => entries.lookup key
  | _, _ => none

/-- The value at a path of indices into sequences and keys into mappings. -/
def atPath? (json : Json) : Path → Option Json
  | [] => some json
  | segment :: rest => (json.member? segment).bind fun child ↦ child.atPath? rest

end Json

end ActionTools
