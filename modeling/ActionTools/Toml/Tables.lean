import ActionTools.Entries
import ActionTools.Toml.Basic

/-!
# Putting tables together

A configuration text says piecemeal what its tables hold: by headers, by dotted keys and by inline
tables. Each of these may add to what is there only under conditions, so while the text is read a
table remembers how it came to be. `Node` is a value with that memory, `Node.toml` the value alone.

Three statements add to a table, each along a path of keys, and each is refused when it would
redefine something: a header of a table (`openTable`), a header of an element of an array of tables
(`openElement`), and an assignment (`assign`). On their way they enter the last element of an array
of tables, and make the tables that are missing.
-/

namespace ActionTools.Toml

/-- How a table came to be. -/
inductive TableOrigin where
  /-- By a header of its own, or as an element of an array of tables. -/
  | header
  /-- On the way to a header of a table inside it. -/
  | outer
  /-- On the way of a dotted key. -/
  | dotted
  deriving DecidableEq

/-- A value in a text that is being read. -/
inductive Node where
  | value (value : Toml)
  | table (origin : TableOrigin) (entries : List (String × Node))
  | tables (elements : List (List (String × Node)))

namespace Node

mutual

/-- The value, its tables being complete. -/
def toml : Node → Toml
  | .value content => content
  | .table _ entries => .table (tomlEntries entries)
  | .tables elements => .array (tomlElements elements)

/-- The values of entries. -/
def tomlEntries : List (String × Node) → List (String × Toml)
  | [] => []
  | (key, node) :: rest => (key, node.toml) :: tomlEntries rest

/-- The values of the elements of an array of tables. -/
def tomlElements : List (List (String × Node)) → List Toml
  | [] => []
  | entries :: rest => .table (tomlEntries entries) :: tomlElements rest

end

end Node

/-- The entries of a table. -/
abbrev Table := List (String × Node)

/-- A list with its last member replaced. -/
def replaceLast {α : Type} (new : α) (list : List α) : List α := list.dropLast ++ [new]

/-- The table after `act` has changed what a path leads to. Missing tables are made with the origin
`missing`, and only tables of an origin that `enters` accepts are entered. `act` is told the origin
of the table it changes. -/
def changeAt (missing : TableOrigin) (enters : TableOrigin → Bool)
    (act : TableOrigin → Table → Option Table) :
    TableOrigin → List String → Table → Option Table
  | origin, [], entries => act origin entries
  | _, key :: rest, entries =>
    match entries.lookup key with
    | none =>
      (changeAt missing enters act missing rest []).map fun inner ↦
        Entries.set key (.table missing inner) entries
    | some (.table origin inner) =>
      if enters origin then
        (changeAt missing enters act origin rest inner).map fun inner ↦
          Entries.set key (.table origin inner) entries
      else none
    | some (.tables elements) =>
      match elements.getLast? with
      | none => none
      | some inner =>
        (changeAt missing enters act .header rest inner).map fun inner ↦
          Entries.set key (.tables (replaceLast inner elements)) entries
    | some (.value _) => none

/-- Changes the table at a path of header keys. -/
def changeAtHeader (act : TableOrigin → Table → Option Table) (path : List String) (table : Table) :
    Option Table :=
  changeAt .outer (fun _ ↦ true) act .header path table

/-- The last key of a path and the keys before it. -/
def splitLast? (path : List String) : Option (List String × String) :=
  path.getLast?.map fun last ↦ (path.dropLast, last)

/-- The root table after the header of a table. The table may be there already if it was made on the
way to another header. -/
def openTable (path : List String) (root : Table) : Option Table := do
  let (outer, key) ← splitLast? path
  let act (_ : TableOrigin) (table : Table) : Option Table :=
    match table.lookup key with
    | none => some (Entries.set key (.table .header []) table)
    | some (.table .outer inner) => some (Entries.set key (.table .header inner) table)
    | some _ => none
  changeAtHeader act outer root

/-- The root table after the header of one more element of an array of tables. -/
def openElement (path : List String) (root : Table) : Option Table := do
  let (outer, key) ← splitLast? path
  let act (_ : TableOrigin) (table : Table) : Option Table :=
    match table.lookup key with
    | none => some (Entries.set key (.tables [[]]) table)
    | some (.tables elements) => some (Entries.set key (.tables (elements ++ [[]])) table)
    | some _ => none
  changeAtHeader act outer root

/-- The table after an assignment to a dotted key. Dotted keys do not enter tables with a header of
their own, and add only to tables that dotted keys have made. -/
def assign (path : List String) (value : Toml) (table : Table) : Option Table := do
  let (outer, key) ← splitLast? path
  let act (origin : TableOrigin) (table : Table) : Option Table :=
    if !outer.isEmpty && origin != .dotted then none
    else if (table.lookup key).isSome then none
    else some (Entries.set key (.value value) table)
  changeAt .dotted (· != .header) act .header outer table

/-- The root table after an assignment under the header with a path. -/
def assignUnder (header : List String) (path : List String) (value : Toml) (root : Table) :
    Option Table :=
  changeAtHeader (fun _ table ↦ assign path value table) header root

/-- The inline table of some assignments. -/
def ofAssignments? (assignments : List (List String × Toml)) : Option Toml :=
  let assignNext (entries : Table) (assignment : List String × Toml) : Option Table :=
    assign assignment.1 assignment.2 entries
  (assignments.foldlM assignNext []).map fun entries ↦ .table (Node.tomlEntries entries)

end ActionTools.Toml
