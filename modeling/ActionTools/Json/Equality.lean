import ActionTools.Json.Tree

/-!
# Equality of values

Two values are equal as data when they are built alike, except that the order of a mapping's keys
does not matter and the two zeros among the doubles are the same number. This is coarser than `=`,
which keeps the order of keys: the text of a value is a function of the value up to `=` only.

Mappings are compared by looking up each key of the first in the second. That is a fair test because
their keys are distinct and their lengths agree.
-/

namespace ActionTools

namespace Json

mutual

/-- Equality of values as data. -/
def equal : Json → Json → Bool
  | .null, .null => true
  | .bool a, .bool b => a == b
  | .number a, .number b => a.equal b
  | .string a, .string b => a == b
  | .array as, .array bs => equalItems as bs
  | .object as, .object bs => as.length == bs.length && equalEntries as bs
  | _, _ => false

/-- Whether two sequences have equal items in the same order. -/
def equalItems : List Json → List Json → Bool
  | [], [] => true
  | a :: as, b :: bs => a.equal b && equalItems as bs
  | _, _ => false

/-- Whether every entry has an equal value under its key among `bs`. -/
def equalEntries : List (String × Json) → List (String × Json) → Bool
  | [], _ => true
  | (key, a) :: as, bs =>
    (match bs.lookup key with
      | some b => a.equal b
      | none => false) && equalEntries as bs

end

end Json

/-- Equality of trees as data. -/
def Tree.equal (a b : Tree) : Bool := a.json.equal b.json

/-- Equality of mappings as data. -/
def Mapping.equal (a b : Mapping) : Bool := a.json.equal b.json

end ActionTools
