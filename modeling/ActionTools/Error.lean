/-!
# What can go wrong

`Failure` lists the causes for which an operation of the compiler fails. The wording of each stands
in `Failure.message` and its process exit code in `Failure.exitCode`, and nowhere else. Causes that
come from files are a type of their own, `FileError`, since files are read and written by the
command line only.
-/

namespace ActionTools

/-- Why a file or directory could not be used. -/
inductive FileError where
  /-- Nothing has this path. -/
  | notFound
  /-- A directory stands where a file is needed. -/
  | isADirectory
  /-- A file stands where the path needs a directory. -/
  | notADirectory
  /-- A file stands where a directory has to be made. -/
  | alreadyExists
  /-- The bytes of a file are not UTF-8 text. -/
  | invalidText
  /-- The path has a NUL character. -/
  | invalidPath
  /-- The path, or a name in it, is longer than a file system allows. -/
  | nameTooLong
  /-- A template root that does not exist. -/
  | templateNotFound (root : String)
  /-- Anything else, in the words of the operating system. -/
  | other (description : String)
  deriving DecidableEq

/-- The wording of a file error. -/
def FileError.message : FileError → String
  | .notFound => "No such file or directory (os error 2)"
  | .isADirectory => "Is a directory (os error 21)"
  | .notADirectory => "Not a directory (os error 20)"
  | .alreadyExists => "File exists (os error 17)"
  | .invalidText => "stream did not contain valid UTF-8"
  | .invalidPath => "file name contained an unexpected NUL byte"
  | .nameTooLong => "File name too long (os error 36)"
  | .templateNotFound root => s!"template path not found: {root}"
  | .other description => description

/-- Why an operation of the compiler failed. -/
inductive Failure where
  /-- A reference path does not resolve in the template it is applied to. -/
  | templateIntegrity (path reason : String)
  /-- Two references of a tool cannot both be named. -/
  | namingCollision (tool name : String)
  /-- No tool of the catalog has this name. -/
  | toolNotFound (name : String)
  /-- A required parameter is not given. -/
  | missingParameter (tool parameter : String)
  /-- A given parameter is not one of the tool's. -/
  | unknownParameter (tool parameter : String)
  /-- A template or override file does not hold what it should. -/
  | invalidTemplate (source : String)
  /-- A text is not JSON or does not decode. -/
  | invalidJson
  /-- A file could not be used. -/
  | file (error : FileError)
  deriving DecidableEq

namespace Failure

/-- The wording of a failure. -/
def message : Failure → String
  | templateIntegrity path reason => s!"Template integrity error at {path}: {reason}"
  | namingCollision tool name => s!"Parameter name collision in tool {tool}: {name}"
  | toolNotFound name => s!"Tool not found: {name}"
  | missingParameter tool parameter => s!"Missing required parameter {parameter} for tool {tool}"
  | unknownParameter tool parameter => s!"Unknown parameter {parameter} for tool {tool}"
  | invalidTemplate source => s!"Invalid template: {source}"
  | invalidJson => "JSON error"
  | file error => s!"I/O error: {error.message}"

/-- The exit code of a process that ends with a failure. -/
def exitCode : Failure → Nat
  | templateIntegrity _ _ | namingCollision _ _ => 70
  | invalidTemplate _ | invalidJson => 65
  | toolNotFound _ | missingParameter _ _ | unknownParameter _ _ => 64
  | file _ => 74

end Failure

end ActionTools
