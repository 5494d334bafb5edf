import ActionTools.Files.Access
import ActionTools.Files.Location
import ActionTools.Json.Record
import ActionTools.Naming.Namer
import ActionTools.Toml.Printer
import ActionTools.Toml.Reader

/-!
# Configuration

The configuration of a project is in a TOML file. Every field has a default, and unknown keys do not
matter; but a file that cannot be read, or one field of the wrong kind, and the whole configuration
is the default one.

The file is looked for in the project's own directory and then in the user's. The directory that
counts is the first that has the file, and the project's when neither has.
-/

namespace ActionTools

/-- How actions are compiled. -/
structure CompilerConfig where
  /-- The collection that tools are tagged with. -/
  toolType : String
  policy : CollisionPolicy
  skipScaffolding : Bool
  deriving DecidableEq

/-- Where the files are that a compilation reads beside the workflows. -/
structure SourceConfig where
  actionsPath : Option String
  intentsPath : Option String
  overridesPath : Option String
  deriving DecidableEq

/-- Where and how the catalog is written. -/
structure OutputConfig where
  catalogPath : String
  isPretty : Bool
  deriving DecidableEq

/-- The configuration of a project. -/
structure Config where
  compiler : CompilerConfig
  sources : SourceConfig
  output : OutputConfig
  deriving DecidableEq

/-! ### Reading records -/

namespace Toml

/-- The fields of a record. It may be given as a table, or as an array of its fields in their order,
in which case members beyond them do not matter; a date is a record without known fields. -/
def fields? (names : List String) : Toml → Option (List (String × Toml))
  | .table entries => some entries
  | .array items => some (names.zip items)
  | .dateTime _ => some []
  | _ => none

/-- A field with a default for its absence. -/
def fieldOr {α : Type} (fields : List (String × Toml)) (name : String) (default : α)
    (read : Toml → Option α) : Option α :=
  match fields.lookup name with
  | some value => read value
  | none => some default

/-- A plain name: a text, or a table of the name alone with nothing under it. -/
def name? : Toml → Option String
  | .string name => some name
  | .table [(name, value)] => if value.isEmpty then some name else none
  | _ => none

end Toml

namespace Config

/-! ### Defaults -/

/-- The directory of a project's configuration. -/
def directoryName : String := ".toolbox"

/-- The name of the configuration file. -/
def fileName : String := "config.toml"

/-- The default for how actions are compiled. -/
def standardCompiler : CompilerConfig := ⟨"shortcut", .fallback, true⟩

/-- The default for the files beside the workflows: none. -/
def standardSources : SourceConfig := ⟨none, none, none⟩

/-- The default for the catalog. -/
def standardOutput : OutputConfig := ⟨Location.join directoryName "catalog.json", true⟩

/-- The default configuration. -/
def standard : Config := ⟨standardCompiler, standardSources, standardOutput⟩

instance : Inhabited Config := ⟨standard⟩

/-- The configuration file that a project starts with. -/
def initialText : String :=
  String.join
    ["# toolbox configuration\n",
      "# See: toolbox config --help\n",
      "\n",
      "[compiler]\n",
      "tool_type = \"shortcut\"\n",
      "# \"fallback\" names ambiguous parameters by their full path, \"fail\" aborts\n",
      "collision_policy = \"fallback\"\n",
      "skip_logical_actions = true\n",
      "\n",
      "[catalog]\n",
      "# actions_path = \"WFActions.json\"\n",
      "# intents_path = \"intents.json\"\n",
      "# overrides_path = \"overrides.json\"\n",
      "\n",
      "[output]\n",
      "catalog_path = \".toolbox/catalog.json\"\n",
      "pretty = true\n"]

/-! ### Reading -/

/-- Reads how actions are compiled. -/
def compilerOfToml? (value : Toml) : Option CompilerConfig := do
  let fields ← value.fields? ["tool_type", "collision_policy", "skip_logical_actions"]
  let toolType ← Toml.fieldOr fields "tool_type" standardCompiler.toolType Toml.string?
  let policy ← Toml.fieldOr fields "collision_policy" standardCompiler.policy fun value ↦
    value.name?.bind CollisionPolicy.ofName?
  let skipScaffolding ←
    Toml.fieldOr fields "skip_logical_actions" standardCompiler.skipScaffolding Toml.bool?
  some ⟨toolType, policy, skipScaffolding⟩

/-- Reads where the files are that a compilation reads beside the workflows. -/
def sourcesOfToml? (value : Toml) : Option SourceConfig := do
  let path (value : Toml) : Option (Option String) := value.string?.map some
  let fields ← value.fields? ["actions_path", "intents_path", "overrides_path"]
  let actionsPath ← Toml.fieldOr fields "actions_path" none path
  let intentsPath ← Toml.fieldOr fields "intents_path" none path
  let overridesPath ← Toml.fieldOr fields "overrides_path" none path
  some ⟨actionsPath, intentsPath, overridesPath⟩

/-- Reads where and how the catalog is written. -/
def outputOfToml? (value : Toml) : Option OutputConfig := do
  let fields ← value.fields? ["catalog_path", "pretty"]
  let catalogPath ← Toml.fieldOr fields "catalog_path" standardOutput.catalogPath Toml.string?
  let isPretty ← Toml.fieldOr fields "pretty" standardOutput.isPretty Toml.bool?
  some ⟨catalogPath, isPretty⟩

/-- Reads a configuration. -/
def ofToml? (value : Toml) : Option Config := do
  let fields ← value.fields? ["compiler", "catalog", "output"]
  let compiler ← Toml.fieldOr fields "compiler" standardCompiler compilerOfToml?
  let sources ← Toml.fieldOr fields "catalog" standardSources sourcesOfToml?
  let output ← Toml.fieldOr fields "output" standardOutput outputOfToml?
  some ⟨compiler, sources, output⟩

/-- The configuration of a text, the default one if the text has none. -/
def ofText (text : String) : Config := ((Toml.parse? text).bind ofToml?).getD standard

/-! ### Writing -/

/-- The text of a configuration; paths that are not set are left out. -/
def text (config : Config) : String :=
  let path (key : String) (value : Option String) : List String :=
    value.toList.map fun path ↦ Toml.assignmentLine key (Toml.stringText path)
  Toml.tablesText
    [Toml.tableText "compiler"
      [Toml.assignmentLine "tool_type" (Toml.stringText config.compiler.toolType),
        Toml.assignmentLine "collision_policy" (Toml.stringText config.compiler.policy.name),
        Toml.assignmentLine "skip_logical_actions" (Toml.boolText config.compiler.skipScaffolding)],
      Toml.tableText "catalog"
        (path "actions_path" config.sources.actionsPath ++
          path "intents_path" config.sources.intentsPath ++
          path "overrides_path" config.sources.overridesPath),
      Toml.tableText "output"
        [Toml.assignmentLine "catalog_path" (Toml.stringText config.output.catalogPath),
          Toml.assignmentLine "pretty" (Toml.boolText config.output.isPretty)]]

/-- A configuration as a JSON value. -/
def json (config : Config) : Json :=
  .object
    [("compiler",
        .object
          [("tool_type", .string config.compiler.toolType),
            ("collision_policy", .string config.compiler.policy.name),
            ("skip_logical_actions", .bool config.compiler.skipScaffolding)]),
      ("catalog",
        .object
          [("actions_path", .ofOption .string config.sources.actionsPath),
            ("intents_path", .ofOption .string config.sources.intentsPath),
            ("overrides_path", .ofOption .string config.sources.overridesPath)]),
      ("output",
        .object
          [("catalog_path", .string config.output.catalogPath),
            ("pretty", .bool config.output.isPretty)])]

end Config

/-! ### Finding the configuration -/

/-- What a process knows about its surroundings beside the files. -/
structure Surroundings where
  /-- The absolute path of the working directory. -/
  workingDirectory : String
  /-- The user's home directory, if known. -/
  home : Option String
  /-- The user's directory for configurations, if one is set. -/
  configHome : Option String

namespace Surroundings

/-- The directory of the project's configuration. -/
def projectDirectory (surroundings : Surroundings) : String :=
  Location.join surroundings.workingDirectory Config.directoryName

/-- The directory of the user's configuration. A setting that is not an absolute path does not
count. -/
def userDirectory? (surroundings : Surroundings) : Option String :=
  let set := surroundings.configHome.filter fun path ↦ path.startsWith "/"
  let base := set <|> surroundings.home.map fun home ↦ Location.join home ".config"
  base.map fun base ↦ Location.join base "toolbox"

end Surroundings

namespace Config

variable {m : Type → Type} [Monad m] [FileAccess m]

/-- The path of the configuration file in a directory. -/
def pathIn (directory : String) : String := Location.join directory fileName

/-- The directory of the configuration that counts. -/
def directory (surroundings : Surroundings) : m String := do
  let project := surroundings.projectDirectory
  if ← FileAccess.pathExists (pathIn project) then return project
  match surroundings.userDirectory? with
  | some user => if ← FileAccess.pathExists (pathIn user) then return user else return project
  | none => return project

/-- The configuration in a directory. -/
def load (directory : String) : m Config := do
  if ← FileAccess.pathExists (pathIn directory) then
    match ← FileAccess.read (pathIn directory) with
    | .ok text => return ofText text
    | .error _ => return standard
  else return standard

end Config

end ActionTools
