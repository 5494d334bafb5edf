import ActionTools.Path

/-!
# Names from what paths do not share

The references found under one key of an action are named by their paths. A single one has the
name of the key. Of several, the leading segments that all paths share and the trailing segments
that all share are trimmed, and what is left of each path, joined by points, is its name.

The two runs are measured independently, so on short paths they may overlap; nothing is left then
and the name is empty.
-/

namespace ActionTools

/-- What stands between the segments of a derived name. -/
def nameSeparator : String := "."

namespace Path

/-- The number of leading segments that two paths share. -/
def sharedLength : Path → Path → Nat
  | a :: as, b :: bs => if a = b then sharedLength as bs + 1 else 0
  | _, _ => 0

/-- The number of leading segments that all paths share. -/
def leadingRun : List Path → Nat
  | [] => 0
  | first :: rest => rest.foldr (fun path run ↦ min (sharedLength first path) run) first.length

/-- The number of trailing segments that all paths share. -/
def trailingRun (paths : List Path) : Nat := leadingRun (paths.map List.reverse)

/-- A path without its first `leading` and its last `trailing` segments. -/
def trim (leading trailing : Nat) (path : Path) : Path :=
  (path.take (path.length - trailing)).drop leading

/-- The names of the references at `paths` under `key`, in their order. Names may be empty or
repeated. -/
def derivedNames (key : String) (paths : List Path) : List String :=
  if paths.length = 1 then [key]
  else paths.map fun path ↦ (path.trim (leadingRun paths) (trailingRun paths)).join nameSeparator

end Path

end ActionTools
