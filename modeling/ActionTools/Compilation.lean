import ActionTools.Discovery
import ActionTools.Repository

/-!
# Compiling workflow files

The steps of a compilation that touch files: reading the look-up tables, the overrides and the
workflows, scanning the workflow files under roots into a repository, and writing and reading the
catalog.

A file that cannot be read is a file error. What a workflow or override file holds in place of what
it should is reported with the path of the file.
-/

namespace ActionTools

section

variable {m : Type → Type} [Monad m] [FileAccess m]

/-- The text of a file. -/
def readText (path : String) : ExceptT Failure m String :=
  ExceptT.mk do
    match ← FileAccess.read path with
    | .ok text => return .ok text
    | .error error => return .error (.file error)

/-- Reads a file with a reader for its document. -/
def readTemplate {α : Type} (read : Document → Option α) (path : String) :
    ExceptT Failure m α := do
  let text ← readText path
  match (Document.parse? text).bind read with
  | some value => return value
  | none => throw (.invalidTemplate path)

/-- Reads a workflow file. -/
def readWorkflow (path : String) : ExceptT Failure m Workflow :=
  readTemplate Workflow.ofDocument? path

/-- Reads an override file. -/
def readOverrides (path : String) : ExceptT Failure m (List OverrideEntry) :=
  readTemplate (Document.list? OverrideEntry.ofDocument?) path

/-- Reads the table of actions into the look-up tables, if there is a file for it. -/
def readActionTable (lookup : Lookup) : Option String → ExceptT Failure m Lookup
  | none => return lookup
  | some path => do
    let text ← readText path
    let (loaded, _) ← MonadExcept.ofExcept (lookup.loadActions text)
    return loaded

/-- Reads the table of intents into the look-up tables, if there is a file for it. -/
def readIntentTable (lookup : Lookup) : Option String → ExceptT Failure m Lookup
  | none => return lookup
  | some path => do
    let text ← readText path
    let (loaded, _) ← MonadExcept.ofExcept (lookup.loadIntents text)
    return loaded

/-- Reads the look-up tables, as far as there are files for them. -/
def readLookup (actions intents : Option String) : ExceptT Failure m Lookup := do
  let withActions ← readActionTable ∅ actions
  readIntentTable withActions intents

/-- What came of the files that were scanned. -/
structure ScanSummary where
  files : Nat
  actions : Tally
  deriving DecidableEq

variable {κ : Type} [BEq κ] [Hashable κ]

/-- Adds the actions of workflow files to a repository, up to the first failure, on top of what the
summary counts. -/
def addFiles (repository : Repository κ) (skipScaffolding : Bool) (summary : ScanSummary) :
    List String → m (Repository κ × Except Failure ScanSummary)
  | [] => return (repository, .ok summary)
  | path :: rest => do
    match ← (readWorkflow path).run with
    | .error failure => return (repository, .error failure)
    | .ok workflow =>
      match repository.addWorkflow skipScaffolding summary.actions workflow with
      | (stopped, _, .error failure) => return (stopped, .error failure)
      | (next, tally, .ok ()) => addFiles next skipScaffolding ⟨summary.files + 1, tally⟩ rest

/-- Adds the actions of all workflow files under roots to a repository, up to the first failure. -/
def scan (repository : Repository κ) (skipScaffolding : Bool) (roots : List String) :
    m (Repository κ × Except Failure ScanSummary) := do
  match ← workflowFiles roots with
  | .error failure => return (repository, .error failure)
  | .ok files => addFiles repository skipScaffolding ⟨0, .zero⟩ files

/-- Writes a catalog, in a directory that is made if it is missing. -/
def writeCatalog (catalog : Catalog) (path : String) (isPretty : Bool) :
    ExceptT Failure m Unit :=
  ExceptT.mk do
    let made ← match Location.parentPath? path with
      | some parent => FileAccess.createDirectories parent
      | none => pure (.ok ())
    match made with
    | .error error => return .error (.file error)
    | .ok () =>
      match ← FileAccess.write path (catalog.text isPretty) with
      | .error error => return .error (.file error)
      | .ok () => return .ok ()

/-- Reads a catalog. -/
def readCatalog (path : String) : ExceptT Failure m Catalog := do
  let text ← readText path
  match Catalog.parse text with
  | .ok catalog => return catalog
  | .error failure => throw failure

end

end ActionTools
