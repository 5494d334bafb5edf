import ActionTools.Entries

/-!
# File trees

A file tree is a file with some content, or a directory of named trees. The content is a parameter:
with bytes a tree is what a disk holds, with `Unit` it is the outline that a walk needs.

A place in a tree is the list of the names that lead to it. `FileTree.at?` looks there, and
`FileTree.put` sets what is there, provided that everything on the way is a directory.
-/

namespace ActionTools

/-- A file, or a directory of named files and directories. -/
inductive FileTree (α : Type) where
  | file (content : α)
  | directory (entries : List (String × FileTree α))

namespace FileTree

variable {α β : Type}

instance : Inhabited (FileTree α) := ⟨directory []⟩

/-- Whether this is a directory. -/
def isDirectory : FileTree α → Bool
  | directory _ => true
  | file _ => false

/-- The tree under a name, when this is a directory that has it. -/
def child? : FileTree α → String → Option (FileTree α)
  | directory entries, name => entries.lookup name
  | file _, _ => none

/-- What is at a place. -/
def at? (tree : FileTree α) : List String → Option (FileTree α)
  | [] => some tree
  | name :: rest => (tree.child? name).bind fun child ↦ child.at? rest

/-- The tree with `new` at a place. Nothing changes when the way there is not all directories. -/
def put (tree : FileTree α) (new : FileTree α) : List String → FileTree α
  | [] => new
  | name :: rest =>
    match tree with
    | file content => .file content
    | directory entries =>
      match rest with
      | [] => .directory (Entries.set name new entries)
      | _ :: _ =>
        match entries.lookup name with
        | none => .directory entries
        | some child => .directory (Entries.set name (child.put new rest) entries)

mutual

/-- The tree with every content replaced. -/
def map (f : α → β) : FileTree α → FileTree β
  | file content => .file (f content)
  | directory entries => .directory (mapEntries f entries)

/-- Entries with every content replaced. -/
def mapEntries (f : α → β) : List (String × FileTree α) → List (String × FileTree β)
  | [] => []
  | (name, tree) :: rest => (name, tree.map f) :: mapEntries f rest

end

/-- The tree without contents. -/
def outline (tree : FileTree α) : FileTree Unit := tree.map fun _ ↦ ()

end FileTree

end ActionTools
