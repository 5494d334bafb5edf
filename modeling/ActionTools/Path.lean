import ActionTools.Json.Record

/-!
# Places in a tree

A path is a list of segments, each a mapping key or a sequence index. The two kinds stay apart even
where they are written alike: the key `"0"` and the index `0` are different segments with the same
text. Both can address the first item of a sequence (`Segment.index?`), and both can name a
mapping's key, by their text.
-/

namespace ActionTools

/-- One step into a tree. -/
inductive Segment where
  /-- A position in a sequence. -/
  | index (value : Nat)
  /-- A key of a mapping. -/
  | key (name : String)
  deriving DecidableEq

/-- A place in a tree, from the root. -/
abbrev Path := List Segment

namespace Segment

/-- One above the greatest index of a sequence. -/
def indexLimit : Nat := 0x10000000000000000

/-- The number with the given decimal digits, when every character is a digit and there is one. -/
def decimal? (text : String) : Option Nat :=
  match text.toList with
  | [] => none
  | digits =>
    if digits.all Char.isDigit then
      some (NumberLiteral.ofDigits (digits.map fun c ↦ c.toNat - '0'.toNat))
    else none

/-- The sequence index that a segment can address: its own, or the one its digits spell. -/
def index? : Segment → Option Nat
  | .index value => some value
  | .key name => (decimal? name).bind fun value ↦ if value < indexLimit then some value else none

/-- The text of a segment. -/
def text : Segment → String
  | .index value => String.ofList (Decimal.digitChars value)
  | .key name => name

/-- Whether a segment comes before another: indices by value, then keys. -/
def lt : Segment → Segment → Bool
  | .index a, .index b => a < b
  | .index _, .key _ => true
  | .key _, .index _ => false
  | .key a, .key b => a < b

/-- A segment as a value: a number or a text. No sequence is so long that its indices reach
`indexLimit`; beyond it the greatest index is written. -/
def json : Segment → Json
  | .index value => .ofNat (min value 0xFFFFFFFFFFFFFFFF) (by omega)
  | .key name => .string name

/-- Reads a segment. -/
def ofDocument? : Document → Option Segment
  | .string name => some (.key name)
  | .number value => value.nat?.map .index
  | _ => none

end Segment

namespace Path

/-- The texts of the segments with a separator between them. -/
def join (separator : String) (path : Path) : String :=
  separator.intercalate (path.map Segment.text)

/-- How a path is named in messages. -/
def text (path : Path) : String :=
  if path.isEmpty then "<root>" else path.join "."

/-- Whether a path comes before another, segment by segment, a proper beginning first. -/
def lt : Path → Path → Bool
  | [], [] => false
  | [], _ :: _ => true
  | _ :: _, [] => false
  | a :: as, b :: bs => a.lt b || (a == b && lt as bs)

/-- The paths in order. -/
def sort (paths : List Path) : List Path := paths.mergeSort fun a b ↦ !lt b a

/-- A path as a value. -/
def json (path : Path) : Json := .array (path.map Segment.json)

/-- Reads a path. -/
def ofDocument? : Document → Option Path := Document.list? Segment.ofDocument?

end Path

end ActionTools
