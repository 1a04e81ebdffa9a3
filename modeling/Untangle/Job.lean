import Untangle.Container
import Untangle.Csv
import Untangle.Deobfuscator
import Untangle.Storage.FileSystem
import Untangle.Storage.PathName

/-!
# Jobs

A job takes a container apart, works on every class in it, and writes the results. All classes are
read before anything is written, so one that cannot be read leaves no output behind. After that, a
class that cannot be worked on is passed through as it was.

Finished classes are written in the order in which they come. A step of writing that fails ends the
job; what was written before it stays, and the outputs are closed so that it can be read.
-/

namespace Untangle

/-- Whether a job is through. -/
inductive JobState where
  | pending | failed | completed
deriving DecidableEq, Repr, Inhabited

def JobState.name : JobState → String
  | pending => "Pending"
  | failed => "Failed"
  | completed => "Completed"

/-- What a job counts. -/
structure JobSummary where
  units : Nat := 0
  deobfuscated : Nat := 0
  /-- Classes that were passed through because of an error. -/
  isolated : Nat := 0
  strings : Nat := 0
  resources : Nat := 0
deriving DecidableEq, Repr, Inhabited

namespace Job

/-- What a job reads and writes. -/
structure Options where
  input : String
  output : Option String := none
  strings : Option String := none
  graphsDir : Option String := none
  /-- Writes nothing. -/
  dry : Bool := false
deriving DecidableEq, Repr, Inhabited

/-- A class that is done. -/
structure Finished where
  entry : Archive.Entry
  modified : Bool := false
  isolated : Bool := false
  decrypted : List DecryptedString := []
  graphs : List (String × String) := []
deriving Repr, Inhabited

/-- Works on a class. An error leaves it as it was. -/
def process (d : Deobfuscator) (number : Nat) (e : Archive.Entry) (u : ClassUnit) : Finished :=
  match d.runOn u e.data number with
  | .ok r =>
    { entry := { e with data := r.data, isDir := false }
      modified := r.modified, decrypted := r.decrypted, graphs := r.graphs }
  | .error _ => { entry := e, isolated := true }

/-- Reads the classes of a container. -/
def load (c : Container) : Except Error (List (Archive.Entry × ClassUnit)) :=
  c.units.mapM fun e =>
    match ClassUnit.parse e.data with
    | .ok u => .ok (e, u)
    | .error cause => .error (.load e.name cause)

/-! ### Outputs -/

/-- What is being written, each part with its file. -/
structure Outputs (File : Type) where
  container : Option (File × ContainerWriter) := none
  strings : Option (File × Csv.Table) := none
  graphsDir : Option String := none
deriving Repr, Inhabited

variable {m : Type → Type} [Monad m] [FileSystem m]

/-- Steps of writing: what was written stays even if a later step fails. -/
abbrev Writing (m : Type → Type) [FileSystem m] :=
  ExceptT Error (StateT (Outputs (FileSystem.OpenFile m)) m)

/-- A step on files as a step of writing. -/
def onFiles {α : Type} (step : m (Except Error α)) : Writing m α :=
  ExceptT.mk (StateT.lift step)

/-- Adds an entry to the container, if one is written. -/
def addEntry (e : Archive.Entry) : Writing m Unit := do
  let o ← get
  match o.container with
  | none => return ()
  | some (file, w) =>
    match w.add e with
    | .ok added =>
      let file ← onFiles (FileSystem.append file (w.part e))
      set { o with container := some (file, added) }
    | .error e => throw e

/-- Adds rows to the table of strings, if one is written. -/
def addStrings (ds : List DecryptedString) : Writing m Unit := do
  let o ← get
  match o.strings with
  | none => return ()
  | some (file, table) =>
    let (out, table) := (table.add ds).release
    let file ← onFiles (FileSystem.append file out)
    set { o with strings := some (file, table) }

/-- Writes graphs, if so asked. -/
def addGraphs (graphs : List (String × String)) : Writing m Unit := do
  match (← get).graphsDir with
  | none => return ()
  | some dir =>
    for (name, dot) in graphs do
      let file ← onFiles (FileSystem.createFile (PathName.join dir name))
      discard (onFiles (FileSystem.append file dot.toUTF8.toList))

/-- Counts a finished class. -/
def tally (s : JobSummary) (f : Finished) : JobSummary :=
  { s with deobfuscated := s.deobfuscated + (if f.modified then 1 else 0)
           isolated := s.isolated + (if f.isolated then 1 else 0)
           strings := s.strings + f.decrypted.length }

/-- Writes what is known about a finished class. -/
def deliver (f : Finished) : Writing m Unit := do
  addEntry f.entry
  addStrings f.decrypted
  addGraphs f.graphs

/-- Writes resources, then finished classes as they come. -/
def stream (resources : List Archive.Entry) (finished : List Finished) : Writing m Unit := do
  resources.forM addEntry
  finished.forM deliver

/-- Writes what is still missing from a file, if there is one. -/
def finish (rest : Option (FileSystem.OpenFile m × List UInt8)) : m (Except Error Unit) := do
  match rest with
  | some (file, data) => return (← FileSystem.append file data).map fun _ => ()
  | none => return .ok ()

/-- Writes what is still missing from the container and the table. The table is written even if the container fails,
whose error then counts. -/
def close (o : Outputs (FileSystem.OpenFile m)) : ExceptT Error m Unit := ExceptT.mk do
  let container ← finish (o.container.map fun (file, w) => (file, w.closing))
  let strings ← finish (o.strings.map fun (file, table) => (file, table.waiting))
  return container.bind fun _ => strings

/-- Creates the files that a job writes to. -/
def openOutputs (options : Options) (kind : ContainerKind) :
    ExceptT Error m (Outputs (FileSystem.OpenFile m)) := do
  if options.dry then return {}
  let container ← match options.output with
    | some path =>
      let file ← ExceptT.mk (FileSystem.createFile path)
      pure (some (file, ({ kind } : ContainerWriter)))
    | none => pure none
  match options.strings with
  | none => return { container, graphsDir := options.graphsDir }
  | some path =>
    match ← ExceptT.lift (FileSystem.createFile (m := m) path) with
    | .ok file => return { container, strings := some (file, {}), graphsDir := options.graphsDir }
    | .error _ =>
      let _ ← ExceptT.lift (close (m := m) { container }).run
      throw (.write ("cannot create " ++ path))

/-- Writes all results. Whatever happens, what was written is closed. -/
def writeAll (o : Outputs (FileSystem.OpenFile m)) (resources : List Archive.Entry)
    (finished : List Finished) : ExceptT Error m Unit := do
  let (result, o) ← ExceptT.lift ((stream resources finished).run.run o)
  match result with
  | .ok () => close o
  | .error e =>
    let _ ← ExceptT.lift (close (m := m) o).run
    throw e

/-- Reads a container from a file. -/
def readContainer (path : String) : ExceptT Error m Container := do
  let data ← ExceptT.mk (FileSystem.readFile path)
  let name := String.ofList ((PathName.fileName? path).getD [])
  ExceptT.mk (pure (Container.ofBytes data name))

/-- Runs a job. -/
def run (d : Deobfuscator) (options : Options) : ExceptT Error m JobSummary := do
  let container ← readContainer options.input
  let units ← ExceptT.mk (pure (load container))
  let outputs ← openOutputs options container.kind
  let finished := units.zipIdx.map fun ((e, u), number) => process d number e u
  writeAll outputs container.resources finished
  return finished.foldl tally { units := units.length, resources := container.resources.length }

/-- Runs a job to its end: the state it is then in, and what came of it. -/
def runToEnd (d : Deobfuscator) (options : Options) : m (JobState × Except Error JobSummary) := do
  match ← (run d options).run with
  | .ok summary => return (.completed, .ok summary)
  | .error e => return (.failed, .error e)

end Job

end Untangle
