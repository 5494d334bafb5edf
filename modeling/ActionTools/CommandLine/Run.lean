import ActionTools.CommandLine.Command
import ActionTools.Compilation
import ActionTools.Config
import ActionTools.Dispatch
import ActionTools.Invocation

/-!
# Running commands

A command works on files and ends with what it prints and an exit code (`Outcome`). A failure is
printed with its cause, so that the text of a file error appears twice: once in the failure and once
as its cause.
-/

namespace ActionTools

/-- A monad in which identifiers can be drawn. -/
class IdSource (m : Type → Type) where
  /-- A supply whose first identifiers, as many as asked for, are fresh and different. -/
  draw : Nat → m IdSupply

/-- What a command prints, and its exit code. -/
structure Outcome where
  exitCode : Nat
  out : String
  err : String
  deriving DecidableEq

/-- Why a command failed. -/
inductive CommandFailure where
  /-- An operation of the compiler failed. -/
  | compiler (failure : Failure)
  /-- A file that the command itself writes could not be written. -/
  | file (error : FileError)
  /-- There is no catalog at a path. -/
  | catalogNotFound (path : String)
  /-- The parameters of a call are not a mapping. -/
  | parametersNotObject
  deriving DecidableEq

namespace CommandFailure

/-- The wording of a failure and of its causes. -/
def texts : CommandFailure → List String
  | compiler (.file error) => [(Failure.file error).message, error.message]
  | compiler failure => [failure.message]
  | file error => [error.message]
  | catalogNotFound path => [s!"Catalog not found: {path} (run \x60toolbox compile\x60 first)"]
  | parametersNotObject => ["--params must be a JSON object"]

/-- The exit code after a failure. -/
def exitCode : CommandFailure → Nat
  | compiler failure => failure.exitCode
  | _ => 1

/-- The outcome of a command that failed. -/
def outcome (failure : CommandFailure) : Outcome :=
  ⟨failure.exitCode, "", "Error: " ++ ": ".intercalate failure.texts ++ "\n"⟩

end CommandFailure

namespace Outcome

/-- The outcome of a command that prints a text. -/
def printed (out : String) : Outcome := ⟨0, out, ""⟩

/-- The outcome of a command that gives a notice. -/
def notice (err : String) : Outcome := ⟨0, "", err⟩

end Outcome

/-- The version of the program. -/
def versionText : String := "toolbox 0.1.0\n"

/-- How the program is called. -/
def usageText : String :=
  String.join
    ["Usage: toolbox [--log-level LEVEL] COMMAND\n\nCommands:\n",
      "  compile TEMPLATES... [--actions FILE] [--intents FILE] [--overrides FILE] [-o FILE]\n",
      "          [--collision-policy fallback|fail] [--compact]\n",
      "  list [--catalog FILE] [--mcp]\n",
      "  instantiate TOOL [-p PARAMS] [--catalog FILE]\n",
      "  workflow [--catalog FILE] [-o FILE]\n",
      "  config [init | path]\n"]

/-- The first line of a text. A carriage return before the line feed does not belong to it. -/
def firstLine (text : String) : String :=
  let chars := text.toList
  let line := chars.takeWhile (· != '\n')
  if line.length < chars.length && line.getLast? == some '\r' then String.ofList line.dropLast
  else String.ofList line

/-- How a tool is listed. -/
def Definition.summaryLine (definition : Definition) : String :=
  s!"{definition.name} ({definition.parameters.size} params): {firstLine definition.description}\n"

namespace Command

section

variable {m : Type → Type} [Monad m] [FileAccess m] [IdSource m]

/-- A result of the compiler as a step of a command. -/
def compilerStep {α : Type} (step : ExceptT Failure m α) : ExceptT CommandFailure m α :=
  ExceptT.mk do
    match ← step.run with
    | .ok value => return .ok value
    | .error failure => return .error (.compiler failure)

/-- A change of a file as a step of a command. -/
def fileStep (step : m (Except FileError Unit)) : ExceptT CommandFailure m Unit :=
  ExceptT.mk do
    match ← step with
    | .ok () => return .ok ()
    | .error error => return .error (.file error)

/-- The catalog at a path. -/
def loadCatalog (path : String) : ExceptT CommandFailure m Catalog := do
  if ← FileAccess.pathExists (m := m) path then compilerStep (readCatalog path)
  else throw (.catalogNotFound path)

/-- What is printed after a compilation. -/
def compiledText (repository : Repository String) (summary : ScanSummary) (output : String) :
    String :=
  let overridden := repository.overriddenCount
  let duplicates := summary.actions.duplicates
  s!"Compiled {repository.size} tools ({overridden} overridden) from {summary.files} files " ++
    s!"({duplicates} duplicates) -> {output}\n"

/-- Compiles workflow files. -/
def compileCatalog (config : Config) (templates : List String) (options : CompileOptions) :
    ExceptT CommandFailure m Outcome := do
  let output := options.outputPath.getD config.output.catalogPath
  let lookup ← compilerStep
    (readLookup (options.actionsPath <|> config.sources.actionsPath)
      (options.intentsPath <|> config.sources.intentsPath))
  let empty := Repository.new (κ := String) id config.compiler.toolType lookup
    (options.policy.getD config.compiler.policy)
  let repository ← match options.overridesPath <|> config.sources.overridesPath with
    | none => pure empty
    | some path => do
      let entries ← compilerStep (readOverrides path)
      match empty.registerOverrides entries with
      | (registered, .ok _) => pure registered
      | (_, .error failure) => throw (.compiler failure)
  match ← scan (m := m) repository config.compiler.skipScaffolding templates with
  | (_, .error failure) => throw (.compiler failure)
  | (filled, .ok summary) => do
    compilerStep (writeCatalog filled.catalog output (config.output.isPretty && !options.isCompact))
    return .printed (compiledText filled summary output)

/-- Lists the tools of a catalog. -/
def listCatalog (path : String) (asListings : Bool) : ExceptT CommandFailure m Outcome := do
  let catalog ← loadCatalog path
  if catalog.isEmpty then return .notice s!"Catalog {path} has no tools\n"
  else if asListings then return .printed ((Json.array catalog.listings).pretty ++ "\n")
  else return .printed (String.join (catalog.definitions.map Definition.summaryLine))

/-- Prints the action of a call. -/
def instantiateTool (path tool parameters : String) : ExceptT CommandFailure m Outcome := do
  let catalog ← loadCatalog path
  match Tree.parse? parameters with
  | none => throw (.compiler .invalidJson)
  | some tree =>
    match tree.mapping? with
    | none => throw .parametersNotObject
    | some mapping =>
      match catalog.invoke tool mapping with
      | .ok action => return .printed (action.json.pretty ++ "\n")
      | .error failure => throw (.compiler failure)

/-- Prints or writes the dispatch workflow. -/
def dispatchCatalog (path : String) (output : Option String) :
    ExceptT CommandFailure m Outcome := do
  let catalog ← loadCatalog path
  let ids ← IdSource.draw (m := m) (Dispatch.demand catalog)
  match Dispatch.workflow catalog ids with
  | .error failure => throw (.compiler failure)
  | .ok dispatch =>
    let text := dispatch.json.pretty
    match output with
    | none => return .printed (text ++ "\n")
    | some output => do
      fileStep (FileAccess.write output text)
      return .printed s!"Wrote {dispatch.actions.length} actions to {output}\n"

/-- Makes a configuration file, unless there is one. -/
def initConfig (surroundings : Surroundings) : ExceptT CommandFailure m Outcome := do
  let directory := surroundings.projectDirectory
  let path := Config.pathIn directory
  fileStep (FileAccess.createDirectories directory)
  if ← FileAccess.pathExists (m := m) path then return .notice s!"Config already exists: {path}\n"
  else
    fileStep (FileAccess.write path Config.initialText)
    return .printed s!"Created: {path}\n"

/-- Runs a command under a configuration. -/
def perform (surroundings : Surroundings) (config : Config) :
    Command → ExceptT CommandFailure m Outcome
  | .compile templates options => compileCatalog config templates options
  | .list path asListings => listCatalog (path.getD config.output.catalogPath) asListings
  | .instantiate tool parameters path =>
    instantiateTool (path.getD config.output.catalogPath) tool parameters
  | .workflow path output => dispatchCatalog (path.getD config.output.catalogPath) output
  | .config .show => return .printed s!"# Effective config\n\n{config.text}\n"
  | .config .init => initConfig surroundings
  | .config .path => do
    let directory ← Config.directory (m := m) surroundings
    return .printed s!"{Config.pathIn directory}\n"

/-- Runs a command under the configuration of its surroundings. -/
def run (surroundings : Surroundings) (command : Command) : m Outcome := do
  let config ← Config.load (← Config.directory surroundings)
  match ← (command.perform surroundings config).run with
  | .ok outcome => return outcome
  | .error failure => return failure.outcome

/-- Runs a command line. -/
def runArguments (surroundings : Surroundings) (arguments : List String) : m Outcome :=
  match read arguments with
  | .ok command => command.run surroundings
  | .error .version => return .printed versionText
  | .error .help => return .printed usageText
  | .error .usage => return ⟨2, "", usageText⟩

end

end Command

end ActionTools
