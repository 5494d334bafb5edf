import ActionTools.Files.Access
import ActionTools.Files.Location

/-!
# A disk in memory

A disk is a tree of files with a working directory, from which relative locations start. Looking up
a location goes step by step from directory to directory; a name that is not there, or a file where
the location goes on, ends it. Changes are those of the usual primitives: a directory is made inside
one that exists, a file is written in one that exists.

A location that does not exist up to its last step can be made all the same
(`Disk.makeDirectories`): its parents are made first, as far as they are missing.

A path text is usable if it is short enough, whatever it leads to; for a walk this holds of the path
of every directory that is entered (`Disk.canWalk`).
-/

namespace ActionTools

/-- Files with a working directory. -/
structure Disk where
  root : FileTree ByteArray
  /-- The names from the root to the working directory. -/
  workingDirectory : List String

namespace Disk

/-- The longest name of a file, in bytes. -/
def maxNameLength : Nat := 255

/-- The length, in bytes, that a path does not reach. -/
def pathLengthLimit : Nat := 4096

/-- Why a path text is not usable at all. -/
def pathError? (text : String) : Option FileError :=
  if text.any (· == '\x00') then some .invalidPath
  else if text.isEmpty then some .notFound
  else if pathLengthLimit ≤ text.utf8ByteSize then some .nameTooLong
  else none

/-! ### Looking up -/

/-- The place reached from a place by a step. -/
def step (disk : Disk) (place : List String) (step : String) : Except FileError (List String) :=
  match disk.root.at? place with
  | some (.directory entries) =>
    if step = "." then .ok place
    else if step = ".." then .ok place.dropLast
    else if maxNameLength < step.utf8ByteSize then .error .nameTooLong
    else if (entries.lookup step).isSome then .ok (place ++ [step])
    else .error .notFound
  | some (.file _) => .error .notADirectory
  | none => .error .notFound

/-- The place reached from a place by several steps. -/
def walk (disk : Disk) (place : List String) : List String → Except FileError (List String)
  | [] => .ok place
  | step :: rest =>
    match disk.step place step with
    | .ok next => disk.walk next rest
    | .error error => .error error

/-- The place at which a location starts. -/
def start (disk : Disk) (location : Location) : List String :=
  if location.isAbsolute then [] else disk.workingDirectory

/-- What is at a location. -/
def find (disk : Disk) (location : Location) : Except FileError (FileTree ByteArray) :=
  match disk.walk (disk.start location) location.steps with
  | .error error => .error error
  | .ok place =>
    match disk.root.at? place with
    | none => .error .notFound
    | some tree =>
      if location.endsInSlash && !tree.isDirectory then .error .notADirectory else .ok tree

/-- Whether there is a directory at a location. -/
def isDirectory (disk : Disk) (location : Location) : Bool :=
  match disk.find location with
  | .ok tree => tree.isDirectory
  | .error _ => false

/-- The text of a file. -/
def readText (disk : Disk) (location : Location) : Except FileError String :=
  match disk.find location with
  | .error error => .error error
  | .ok (.directory _) => .error .isADirectory
  | .ok (.file bytes) =>
    match String.fromUTF8? bytes with
    | some text => .ok text
    | none => .error .invalidText

/-! ### Changing -/

/-- The place of the directory that a location's last step leads out of, with that step. -/
def enclosing (disk : Disk) (location : Location) :
    Except FileError (List String × Option String) :=
  match disk.walk (disk.start location) location.steps.dropLast with
  | .error error => .error error
  | .ok place =>
    match disk.root.at? place with
    | some (.directory _) =>
      match location.steps.getLast? with
      | none => .ok (place, none)
      | some last =>
        if Location.isDots last then .ok (place, none)
        else if maxNameLength < last.utf8ByteSize then .error .nameTooLong
        else .ok (place, some last)
    | some (.file _) => .error .notADirectory
    | none => .error .notFound

/-- The disk with a file at a location whose directory exists. -/
def writeBytes (disk : Disk) (location : Location) (bytes : ByteArray) : Except FileError Disk :=
  match disk.enclosing location with
  | .error error => .error error
  | .ok (_, none) => .error .isADirectory
  | .ok (place, some name) =>
    if location.endsInSlash then .error .isADirectory
    else
      match disk.root.at? (place ++ [name]) with
      | some (.directory _) => .error .isADirectory
      | _ => .ok { disk with root := disk.root.put (.file bytes) (place ++ [name]) }

/-- The disk with an empty directory at a location at which there is nothing yet. -/
def makeDirectory (disk : Disk) (location : Location) : Except FileError Disk :=
  match disk.enclosing location with
  | .error error => .error error
  | .ok (_, none) => .error .alreadyExists
  | .ok (place, some name) =>
    match disk.root.at? (place ++ [name]) with
    | some _ => .error .alreadyExists
    | none => .ok { disk with root := disk.root.put (.directory []) (place ++ [name]) }

/-- Makes directories at `location` and, as far as they are missing, at `outer` steps around it;
these are the steps of the location from its last to its first. -/
def makeDirectoriesAt (disk : Disk) (isAbsolute : Bool) :
    List String → Disk × Except FileError Unit
  | [] => (disk, .ok ())
  | last :: outer =>
    let location : Location := ⟨isAbsolute, (last :: outer).reverse, false⟩
    let settle (disk : Disk) (error : FileError) : Disk × Except FileError Unit :=
      (disk, if disk.isDirectory location then .ok () else .error error)
    match disk.makeDirectory location with
    | .ok made => (made, .ok ())
    | .error .notFound =>
      match disk.makeDirectoriesAt isAbsolute outer with
      | (made, .error error) => (made, .error error)
      | (made, .ok ()) =>
        match made.makeDirectory location with
        | .ok last => (last, .ok ())
        | .error error => settle made error
    | .error error => settle disk error

/-- Makes a directory and, as far as they are missing, those around it. -/
def makeDirectories (disk : Disk) (location : Location) : Disk × Except FileError Unit :=
  disk.makeDirectoriesAt location.isAbsolute location.steps.reverse

/-! ### Walking -/

mutual

/-- Whether the directories that a walk enters from one at `path` can all be listed: the path of
none is too long. Hidden entries are not entered. -/
def canWalk {α : Type} (path : String) : FileTree α → Bool
  | .file _ => true
  | .directory entries =>
    decide (path.utf8ByteSize < pathLengthLimit) && canWalkEntries path entries

/-- Whether the entries of a directory at `path` can be walked. -/
def canWalkEntries {α : Type} (path : String) : List (String × FileTree α) → Bool
  | [] => true
  | (name, tree) :: rest =>
    (Location.isHiddenName name || canWalk (Location.join path name) tree)
      && canWalkEntries path rest

end

/-! ### The disk as access to files -/

/-- What `use` makes of the location of a path text that is usable. -/
def located {α : Type} (text : String) (use : Location → Except FileError α) :
    Except FileError α :=
  match pathError? text with
  | some error => .error error
  | none => use (Location.ofText text)

/-- What is at a path, to be walked. -/
def outlineAt (disk : Disk) (path : String) : Except FileError (FileTree Unit) :=
  match located path disk.find with
  | .error _ => .error .notFound
  | .ok tree => if canWalk path tree then .ok tree.outline else .error .nameTooLong

instance : FileAccess (StateM Disk) where
  pathExists path := do
    let disk ← get
    return (located path disk.find).isOk
  outline path := do
    let disk ← get
    return disk.outlineAt path
  read path := do
    let disk ← get
    return located path disk.readText
  createDirectories path := do
    let disk ← get
    if path.isEmpty then return .ok ()
    match located path Except.ok with
    | .error error => return .error error
    | .ok location =>
      let (made, result) := disk.makeDirectories location
      set made
      return result
  write path text := do
    let disk ← get
    match located path fun location ↦ disk.writeBytes location text.toUTF8 with
    | .error error => return .error error
    | .ok written =>
      set written
      return .ok ()

end Disk

end ActionTools
