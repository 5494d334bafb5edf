import ActionTools.Error
import ActionTools.Files.Tree

/-!
# Access to files

What the compiler needs of the files around it, as operations on path texts in some monad. The
program is written against this interface; it runs on the disk of a machine or on one in memory.
-/

namespace ActionTools

/-- A monad in which files can be looked at, read and written. -/
class FileAccess (m : Type → Type) where
  /-- Whether anything is at a path. -/
  pathExists : String → m Bool
  /-- What is at a path: a file, or a directory with all that is below it. The error is `notFound`
  when nothing can be seen there, and any other one when what is below cannot be listed. -/
  outline : String → m (Except FileError (FileTree Unit))
  /-- The text of a file. -/
  read : String → m (Except FileError String)
  /-- Makes a directory, and those around it, unless they are there. -/
  createDirectories : String → m (Except FileError Unit)
  /-- Writes the text of a file, which may be new. -/
  write : String → String → m (Except FileError Unit)

end ActionTools
