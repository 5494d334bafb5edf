import ActionTools.CommandLine.Arguments
import ActionTools.Naming.Namer

/-!
# The commands of the program

A command line is a command with its options, under the options of the program. Each command has a
grammar for its arguments (`Grammar`) and a way to build a `Command` from them.
-/

namespace ActionTools

/-- What to do with the configuration. -/
inductive ConfigCommand where
  /-- Print the configuration. -/
  | show
  /-- Make a configuration file. -/
  | init
  /-- Print the path of the configuration file. -/
  | path
  deriving DecidableEq

/-- Where a compilation differs from the configuration. -/
structure CompileOptions where
  actionsPath : Option String
  intentsPath : Option String
  overridesPath : Option String
  outputPath : Option String
  policy : Option CollisionPolicy
  isCompact : Bool
  deriving DecidableEq

/-- A command of the program. -/
inductive Command where
  /-- Compile workflow files into a catalog. -/
  | compile (templates : List String) (options : CompileOptions)
  /-- List the tools of a catalog. -/
  | list (catalogPath : Option String) (asListings : Bool)
  /-- Print the action of one call of a tool. -/
  | instantiate (tool parameters : String) (catalogPath : Option String)
  /-- Print or write the dispatch workflow. -/
  | workflow (catalogPath outputPath : Option String)
  | config (command : ConfigCommand)
  deriving DecidableEq

namespace Command

/-! ### Grammars -/

/-- A path is any text but the empty one. -/
def isPath (value : String) : Bool := !value.isEmpty

/-- Accepts any value. -/
def isAny (_ : String) : Bool := true

/-- An option whose value is a path. -/
def pathOption (long : String) (short : Option Char) : OptionSpec := ⟨long, short, .valued isPath⟩

/-- The options of every command: help and the level of log messages. -/
def sharedOptions : List OptionSpec :=
  [⟨"help", some 'h', .help⟩, ⟨"log-level", none, .valued isAny⟩]

/-- The grammar of a command without operands and further commands. -/
def grammarOf (options : List OptionSpec) : Grammar :=
  ⟨options ++ sharedOptions, fun _ _ ↦ false, []⟩

/-- The grammar of the program. -/
def programGrammar : Grammar :=
  { grammarOf [⟨"version", some 'V', .version⟩] with
    commands := ["compile", "list", "instantiate", "workflow", "config", "help"] }

/-- The grammar of `compile`. -/
def compileGrammar : Grammar :=
  { grammarOf
      [pathOption "actions" none, pathOption "intents" none, pathOption "overrides" none,
        pathOption "output" (some 'o'),
        ⟨"collision-policy", none, .valued fun value ↦ (CollisionPolicy.ofName? value).isSome⟩,
        ⟨"compact", none, .flag⟩] with
    acceptsOperand := fun _ value ↦ isPath value }

/-- The grammar of `list`. -/
def listGrammar : Grammar := grammarOf [pathOption "catalog" none, ⟨"mcp", none, .flag⟩]

/-- The grammar of `instantiate`. -/
def instantiateGrammar : Grammar :=
  { grammarOf [⟨"params", some 'p', .valued isAny⟩, pathOption "catalog" none] with
    acceptsOperand := fun before _ ↦ before == 0 }

/-- The grammar of `workflow`. -/
def workflowGrammar : Grammar :=
  grammarOf [pathOption "catalog" none, pathOption "output" (some 'o')]

/-- The grammar of `config`. -/
def configGrammar : Grammar := { grammarOf [] with commands := ["init", "path", "help"] }

/-- Whether help can be given on a command that is named by its way from the program. Under `help`
there are no commands. -/
def hasHelp : List String → Bool
  | [] => true
  | [name] => programGrammar.commands.contains name
  | ["config", name] => configGrammar.commands.contains name
  | _ => false

/-! ### Reading -/

/-- Reads the arguments of `compile`. -/
def readCompile (arguments : List String) : Except ArgumentStop Command := do
  let given ← compileGrammar.read arguments
  if given.operands.isEmpty then throw .usage
  return .compile given.operands
    { actionsPath := given.value? "actions"
      intentsPath := given.value? "intents"
      overridesPath := given.value? "overrides"
      outputPath := given.value? "output"
      policy := (given.value? "collision-policy").bind CollisionPolicy.ofName?
      isCompact := given.has "compact" }

/-- Reads the arguments of `list`. -/
def readList (arguments : List String) : Except ArgumentStop Command := do
  let given ← listGrammar.read arguments
  return .list (given.value? "catalog") (given.has "mcp")

/-- Reads the arguments of `instantiate`. Without parameters a call has an empty mapping of them. -/
def readInstantiate (arguments : List String) : Except ArgumentStop Command := do
  let given ← instantiateGrammar.read arguments
  match given.operands with
  | [tool] =>
    return .instantiate tool ((given.value? "params").getD "\x7b\x7d") (given.value? "catalog")
  | _ => throw .usage

/-- Reads the arguments of `workflow`. -/
def readWorkflowCommand (arguments : List String) : Except ArgumentStop Command := do
  let given ← workflowGrammar.read arguments
  return .workflow (given.value? "catalog") (given.value? "output")

/-- Answers a request for help on a command. -/
def readHelp (way : List String) : Except ArgumentStop Command :=
  .error (if hasHelp way then .help else .usage)

/-- Reads the arguments of `config`. -/
def readConfig (arguments : List String) : Except ArgumentStop Command := do
  let given ← configGrammar.read arguments
  match given.command with
  | none => return .config .show
  | some ("init", rest) =>
    let _ ← (grammarOf []).read rest
    return .config .init
  | some ("path", rest) =>
    let _ ← (grammarOf []).read rest
    return .config .path
  | some (_, rest) => readHelp ("config" :: rest)

/-- Reads a command line. -/
def read (arguments : List String) : Except ArgumentStop Command := do
  let given ← programGrammar.read arguments
  match given.command with
  | some ("compile", rest) => readCompile rest
  | some ("list", rest) => readList rest
  | some ("instantiate", rest) => readInstantiate rest
  | some ("workflow", rest) => readWorkflowCommand rest
  | some ("config", rest) => readConfig rest
  | some (_, rest) => readHelp rest
  | none => throw .usage

end Command

end ActionTools
