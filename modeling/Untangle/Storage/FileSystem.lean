import Untangle.Error

/-!
# Access to files

What the program does with files, whatever keeps them. Each step may fail.

A file that is opened twice has two places at which it is written on, so what is written through one
may overwrite what was written through the other.
-/

namespace Untangle

/-- A monad in which files can be read and written. -/
class FileSystem (m : Type → Type) where
  /-- A file that is being written, and the place in it that is written next. -/
  OpenFile : Type
  /-- The contents of a file. -/
  readFile : String → m (Except Error (List UInt8))
  /-- Opens a file for writing. One that is there loses its contents. -/
  createFile : String → m (Except Error OpenFile)
  /-- Writes bytes at the place that is written next, which is then behind them. -/
  append : OpenFile → List UInt8 → m (Except Error OpenFile)
  /-- Makes a directory, and those it is in. -/
  createDirs : String → m (Except Error Unit)

end Untangle
