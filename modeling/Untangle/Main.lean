import Untangle.CommandLine.Run

/-!
# The program

Runs the command line on the files of the machine.
-/

namespace Untangle

/-- A step on files; whatever goes wrong is an error of storage. -/
def storageStep {α : Type} (step : IO α) : IO (Except Error α) := do
  match ← step.toBaseIO with
  | .ok a => return .ok a
  | .error _ => return .error .storage

/-- Makes a directory and those it is in. One that is named by a dot in it has to be there. -/
def makeDirs (path : String) : IO Unit := do
  if PathName.endsInside path then
    if PathName.parent path ≠ "" then IO.FS.createDirAll (PathName.parent path)
    try IO.FS.createDir path
    catch
      | .alreadyExists .. => pure ()
      | e => throw e
  else if path ≠ "" then IO.FS.createDirAll path

instance : FileSystem IO where
  OpenFile := IO.FS.Handle
  readFile path := do
    match ← storageStep (IO.FS.readBinFile path) with
    | .ok data => return if data.isEmpty then .error .storage else .ok data.toList
    | .error e => return .error e
  createFile path := storageStep (IO.FS.Handle.mk path .write)
  append file data := storageStep do
    file.write ⟨data.toArray⟩
    file.flush
    return file
  createDirs path := storageStep (makeDirs path)

end Untangle

/-- Runs the program. -/
def main (words : List String) : IO UInt32 := do
  let outcome ← Untangle.CommandLine.run words
  outcome.output.forM IO.println
  outcome.errors.forM IO.eprintln
  return outcome.exitCode
