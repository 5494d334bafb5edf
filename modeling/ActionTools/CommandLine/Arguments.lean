/-!
# Command line arguments

The arguments of a command are options, by long or short name, and operands. A `Grammar` says which
options there are, which operands are acceptable, and which words end the arguments because the rest
belongs to a command of that name.

Arguments are taken from left to right, and the first thing wrong, or the first request for help or
for the version, decides. A value may be joined to its option; as a separate argument it must not
look like an option. An option is given once. After `--` everything is an operand.
-/

namespace ActionTools

/-- What an option stands for. -/
inductive OptionKind where
  /-- The option is there or not. -/
  | flag
  /-- The option has a value that the predicate accepts. -/
  | valued (accepts : String → Bool)
  | help
  | version

/-- An option of a command. -/
structure OptionSpec where
  /-- The name after two hyphens. -/
  long : String
  /-- The name after one hyphen. -/
  short : Option Char
  kind : OptionKind

/-- What arguments a command takes. -/
structure Grammar where
  options : List OptionSpec
  /-- Whether an operand is acceptable, with the number of operands before it. -/
  acceptsOperand : Nat → String → Bool
  /-- The names of commands under this one. -/
  commands : List String

/-- The arguments of a command, sorted out. -/
structure Arguments where
  /-- The options with their values, a flag having an empty one. -/
  options : List (String × String)
  operands : List String
  /-- The name of a command under this one, with its arguments. -/
  command : Option (String × List String)

/-- Why arguments are not simply taken. -/
inductive ArgumentStop where
  | usage
  | help
  | version
  deriving DecidableEq

namespace Arguments

/-- No arguments. -/
def empty : Arguments := ⟨[], [], none⟩

/-- The value of an option. -/
def value? (arguments : Arguments) (long : String) : Option String := arguments.options.lookup long

/-- Whether an option is given. -/
def has (arguments : Arguments) (long : String) : Bool := (arguments.value? long).isSome

/-- The arguments with one more option. -/
def addOption (arguments : Arguments) (long value : String) : Except ArgumentStop Arguments :=
  if arguments.has long then .error .usage
  else .ok { arguments with options := arguments.options ++ [(long, value)] }

/-- The arguments with one more option that has a value. -/
def addValue (arguments : Arguments) (option : OptionSpec) (accepts : String → Bool)
    (value : String) : Except ArgumentStop Arguments :=
  if accepts value then arguments.addOption option.long value else .error .usage

/-- The arguments with one more operand. -/
def addOperand (arguments : Arguments) (grammar : Grammar) (operand : String) :
    Except ArgumentStop Arguments :=
  if grammar.acceptsOperand arguments.operands.length operand then
    .ok { arguments with operands := arguments.operands ++ [operand] }
  else .error .usage

end Arguments

namespace Grammar

/-- Whether an argument looks like an option. A single hyphen does not. -/
def looksLikeOption (argument : String) : Bool :=
  argument.startsWith "-" && argument != "-"

/-- A long option's name and the value joined to it. -/
def splitLong (text : List Char) : String × Option String :=
  let name := String.ofList (text.takeWhile (· != '='))
  match text.dropWhile (· != '=') with
  | [] => (name, none)
  | _ :: value => (name, some (String.ofList value))

/-- What an argument that looks like an option comes to. -/
inductive OptionReading where
  /-- Everything is said. -/
  | complete (arguments : Arguments)
  /-- The value of an option has to follow, and has to be one that the predicate accepts. -/
  | awaiting (arguments : Arguments) (option : OptionSpec) (accepts : String → Bool)

/-- Takes an option, with the value joined to it if there is one. -/
def takeOption (arguments : Arguments) (option : OptionSpec) (joined : Option String) :
    Except ArgumentStop OptionReading :=
  match option.kind, joined with
  | .valued accepts, some value => (arguments.addValue option accepts value).map .complete
  | .valued accepts, none => .ok (.awaiting arguments option accepts)
  | _, some _ => .error .usage
  | .help, none => .error .help
  | .version, none => .error .version
  | .flag, none => (arguments.addOption option.long "").map .complete

/-- Takes an argument that starts with two hyphens. -/
def takeLong (grammar : Grammar) (arguments : Arguments) (text : List Char) :
    Except ArgumentStop OptionReading :=
  let (name, joined) := splitLong text
  match grammar.options.find? fun option ↦ option.long == name with
  | some option => takeOption arguments option joined
  | none => .error .usage

/-- The value joined to a short option, when there is one; an equals sign may stand before it. -/
def joinedValue? : List Char → Option String
  | [] => none
  | '=' :: value => some (String.ofList value)
  | value => some (String.ofList value)

/-- Takes the short options after one hyphen. The last one may have a value joined to it. -/
def takeShort (grammar : Grammar) (arguments : Arguments) :
    List Char → Except ArgumentStop OptionReading
  | [] => .ok (.complete arguments)
  | c :: rest =>
    match grammar.options.find? fun option ↦ option.short == some c with
    | none => .error .usage
    | some option =>
      match option.kind with
      | .valued _ => takeOption arguments option (joinedValue? rest)
      | _ =>
        match takeOption arguments option none with
        | .ok (.complete arguments) => takeShort grammar arguments rest
        | other => other

/-- Takes an argument that looks like an option. -/
def takeOptions (grammar : Grammar) (arguments : Arguments) (argument : String) :
    Except ArgumentStop OptionReading :=
  match argument.toList with
  | '-' :: '-' :: text => takeLong grammar arguments text
  | _ :: text => takeShort grammar arguments text
  | [] => .error .usage

/-- Takes operands only. -/
def takeOperands (grammar : Grammar) (arguments : Arguments) :
    List String → Except ArgumentStop Arguments
  | [] => .ok arguments
  | operand :: rest =>
    match arguments.addOperand grammar operand with
    | .ok arguments => takeOperands grammar arguments rest
    | .error stop => .error stop

/-- Sorts out arguments, up to the name of a command under this one. -/
def take (grammar : Grammar) (arguments : Arguments) :
    List String → Except ArgumentStop Arguments
  | [] => .ok arguments
  | argument :: rest =>
    if argument = "--" then takeOperands grammar arguments rest
    else if looksLikeOption argument then
      match takeOptions grammar arguments argument, rest with
      | .error stop, _ => .error stop
      | .ok (.complete arguments), rest => take grammar arguments rest
      | .ok (.awaiting ..), [] => .error .usage
      | .ok (.awaiting arguments option accepts), value :: rest =>
        if looksLikeOption value then .error .usage
        else
          match arguments.addValue option accepts value with
          | .ok arguments => take grammar arguments rest
          | .error stop => .error stop
    else if grammar.commands.contains argument then
      .ok { arguments with command := some (argument, rest) }
    else
      match arguments.addOperand grammar argument with
      | .ok arguments => take grammar arguments rest
      | .error stop => .error stop

/-- The arguments of a command, sorted out. -/
def read (grammar : Grammar) (arguments : List String) : Except ArgumentStop Arguments :=
  grammar.take .empty arguments

end Grammar

end ActionTools
