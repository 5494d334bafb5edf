import ActionTools.CommandLine.Run
import ActionTools.Uuid

/-!
# The program

The command line on the files of the machine. Workflow files are to be named one by one: the
directories of the machine are not listed, and a root that is one is refused.
-/

namespace ActionTools

/-- A failure of the operating system as a file error. -/
def FileError.ofSystem : IO.Error → FileError
  | .noFileOrDirectory .. => .notFound
  | .inappropriateType _ code _ => if code == 20 then .notADirectory else .isADirectory
  | .alreadyExists .. => .alreadyExists
  | failure => .other (toString failure)

/-- The result of an operation of the operating system, or why it failed. -/
def attempt {α : Type} (operation : IO α) : IO (Except FileError α) := do
  match ← operation.toBaseIO with
  | .ok value => return .ok value
  | .error failure => return .error (FileError.ofSystem failure)

/-- Reads a little of a file, or fails as reading it would. -/
def probe (path : String) : IO (Except FileError Unit) :=
  attempt do
    let handle ← IO.FS.Handle.mk path .read
    let _ ← handle.read 1

instance : FileAccess IO where
  pathExists path := do
    match ← probe path with
    | .ok () | .error .isADirectory => return true
    | .error _ => return false
  outline path := do
    match ← probe path with
    | .ok () => return .ok (.file ())
    | .error .isADirectory => return .error (.other s!"directories are not listed: {path}")
    | .error _ => return .error .notFound
  read path := do
    match ← attempt (IO.FS.readBinFile path) with
    | .ok bytes =>
      match String.fromUTF8? bytes with
      | some text => return .ok text
      | none => return .error .invalidText
    | .error error => return .error error
  createDirectories path := attempt (IO.FS.createDirAll path)
  write path text := attempt (IO.FS.writeFile path text)

instance : IdSource IO where
  draw count := do
    let mut drawn : Array String := #[]
    for _ in [0:count] do
      drawn := drawn.push (Uuid.text (← IO.getRandomBytes 16).data.toList)
    let ids := drawn
    return fun n ↦ ids.getD n ""

end ActionTools

/-- Runs the command line. -/
def main (arguments : List String) : IO UInt32 := do
  let surroundings : ActionTools.Surroundings :=
    { workingDirectory := toString (← IO.currentDir)
      home := ← IO.getEnv "HOME"
      configHome := ← IO.getEnv "XDG_CONFIG_HOME" }
  let outcome ← ActionTools.Command.runArguments surroundings arguments
  IO.print outcome.out
  IO.eprint outcome.err
  return UInt32.ofNat outcome.exitCode
