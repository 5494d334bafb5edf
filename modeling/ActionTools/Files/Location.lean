/-!
# Locations

A location is a path text taken apart: the steps between its slashes, whether they start at the root
of all files, and whether the text ends in a slash and so asks for a directory. A step is a name,
`.` or `..`; empty steps do not count. What contains a path is a matter of the text: it is
a beginning of it (`Location.parentPath?`), so that it is no longer than the path.
-/

namespace ActionTools

/-- A path text taken apart. -/
structure Location where
  isAbsolute : Bool
  steps : List String
  endsInSlash : Bool
  deriving DecidableEq

namespace Location

/-- The parts of a path text before, between and after its slashes. -/
def parts (text : String) : List String := (text.toList.splitOn '/').map String.ofList

/-- The location of a path text. -/
def ofText (text : String) : Location where
  isAbsolute := text.startsWith "/"
  steps := (parts text).filter fun step ↦ step != ""
  endsInSlash := text.endsWith "/"

/-- Whether a step stays or goes up, instead of leading to a name. -/
def isDots (step : String) : Bool := step == "." || step == ".."

/-- The parts of a path text without those at the end that are empty or `.`. -/
def trimmed (parts : List String) : List String :=
  (parts.reverse.dropWhile fun part ↦ part == "" || part == ".").reverse

/-- The path text of what contains a path: the text up to its last step, without the slashes and the
`.` steps between. What is left of the text stays as it is. An empty step does not count as the last
one, nor does a `.` unless the text begins with it. A single step is in the empty path, and nothing
contains the empty path or the root. -/
def parentPath? (path : String) : Option String :=
  match parts path with
  | [] => none
  | first :: rest =>
    match trimmed rest with
    | [] => if first.isEmpty then none else some ""
    | steps =>
      match trimmed steps.dropLast with
      | [] => some (if first.isEmpty then "/" else first)
      | outer => some ("/".intercalate (first :: outer))

/-- The path text of a name under a path text. -/
def join (path name : String) : String :=
  if name.startsWith "/" || path.isEmpty then name
  else if path.endsWith "/" then path ++ name
  else path ++ "/" ++ name

/-- Whether a name is that of a hidden entry of a directory. -/
def isHiddenName (name : String) : Bool := name.toList.head? == some '.'

end Location

end ActionTools
