import ActionTools.Json.Printer
import ActionTools.Json.Tree
import ActionTools.NameMap

/-!
# Canonical text

The canonical text of a value is its compact text with the keys of every mapping in increasing order
and with `0.0` for both zeros among the doubles. Values that are equal as data have the same
canonical text, so that text, or any digest of it, is a key under which equal values meet.

`Json.normal` does the work on values: it sorts the entries of every mapping and makes zeros
positive, and the canonical text is the compact text of the result. Sorting goes through `NameMap`,
which is determined by its look-ups; a mapping's entries in normal form are therefore a function of
what its keys are bound to.
-/

namespace ActionTools

namespace Json

/-- A number with a zero made positive. -/
def normalNumber : Number → Number
  | .double x => if x.isZero then .double (.zero false) else .double x
  | n => n

mutual

/-- The value with the entries of every mapping sorted by key and with zeros made positive. -/
def normal : Json → Json
  | .number value => .number (normalNumber value)
  | .array items => .array (normalItems items)
  | .object entries => .object (NameMap.ofList (normalEntries entries)).entries
  | json => json

/-- The items in normal form. -/
def normalItems : List Json → List Json
  | [] => []
  | item :: rest => item.normal :: normalItems rest

/-- The entries, in their order, with values in normal form. -/
def normalEntries : List (String × Json) → List (String × Json)
  | [] => []
  | (key, value) :: rest => (key, value.normal) :: normalEntries rest

end

/-- The canonical text. -/
def canonical (json : Json) : String := json.normal.compact

end Json

end ActionTools
