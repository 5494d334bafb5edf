import ActionTools.Files.Access
import ActionTools.Files.Location
import ActionTools.NameMap

/-!
# Finding workflow files

Workflow files are looked for under roots. A root that is a file is taken as it is. A root that is a
directory is walked depth first, the entries of each directory in the order of their names: files
with the extension of workflow files are taken, hidden entries are left out with all that is below
them. The root itself may have any name.
-/

namespace ActionTools

/-- The part of a file name after its last dot, unless there is no dot but at the start. -/
def fileExtension? (name : String) : Option String :=
  let backwards := name.toList.reverse
  match backwards.dropWhile (· != '.') with
  | _ :: _ :: _ => some (String.ofList (backwards.takeWhile (· != '.')).reverse)
  | _ => none

/-- Whether a file of this name holds a workflow. -/
def isWorkflowName (name : String) : Bool := fileExtension? name == some "json"

namespace FileTree

variable {α : Type}

mutual

/-- The workflow files below a directory of the given path, in the order of the walk. -/
def workflowsBelow (path : String) : FileTree α → List String
  | .file _ => []
  | .directory entries => (NameMap.ofList (workflowsOfEntries path entries)).values.flatten

/-- For each entry of a directory of the given path, the workflow files that it contributes. -/
def workflowsOfEntries (path : String) :
    List (String × FileTree α) → List (String × List String)
  | [] => []
  | (name, tree) :: rest =>
    let own :=
      if Location.isHiddenName name then []
      else if tree.isDirectory then tree.workflowsBelow (Location.join path name)
      else if isWorkflowName name then [Location.join path name]
      else []
    (name, own) :: workflowsOfEntries path rest

end

/-- The workflow files of a root of the given path. -/
def workflowsOfRoot (path : String) (tree : FileTree α) : List String :=
  if tree.isDirectory then tree.workflowsBelow path else [path]

end FileTree

section

variable {m : Type → Type} [Monad m] [FileAccess m]

/-- Why the files of a root are not found: there is nothing at the root, or what is below it cannot
be listed. -/
def rootFailure (root : String) : FileError → Failure
  | .notFound => .file (.templateNotFound root)
  | error => .file error

/-- The workflow files under roots, root by root. -/
def workflowFiles : List String → m (Except Failure (List String))
  | [] => return .ok []
  | root :: rest => do
    match ← FileAccess.outline root with
    | .error error => return .error (rootFailure root error)
    | .ok tree =>
      match ← workflowFiles rest with
      | .error failure => return .error failure
      | .ok others => return .ok (tree.workflowsOfRoot root ++ others)

end

end ActionTools
