import Untangle.Archive.Writing
import Untangle.ClassFile

/-!
# Containers of classes

Classes come in archives, together with other files, or one by one. What is a class is told by its
first bytes and not by its name.
-/

namespace Untangle

/-- How classes are kept. -/
inductive ContainerKind where
  | archive
  /-- A file that is a class itself. -/
  | singleUnit
deriving DecidableEq, Repr, Inhabited

/-- Classes, and the files that come with them. -/
structure Container where
  kind : ContainerKind
  units : List Archive.Entry
  /-- Directories, and files that are no classes. -/
  resources : List Archive.Entry
deriving DecidableEq, Repr, Inhabited

namespace Container

/-- An entry that is a class. -/
def isUnit (e : Archive.Entry) : Bool := !e.isDir && ClassFile.hasMagic e.data

/-- Reads a container from data. A single class gets the name that is given. -/
def ofBytes (data : List UInt8) (name : String) : Except Error Container := do
  if ClassFile.hasMagic data then return ⟨.singleUnit, [⟨name, data, false⟩], []⟩
  let entries ← Archive.read data
  return ⟨.archive, entries.filter isUnit, entries.filter fun e => !isUnit e⟩

end Container

/-- A container that is being written. -/
structure ContainerWriter where
  kind : ContainerKind
  /-- The entries written, last first. -/
  entries : List Archive.Entry := []
deriving DecidableEq, Repr, Inhabited

namespace ContainerWriter

/-- What archives say about themselves. -/
def comment : String := "Deobfuscated by unskid"

/-- Number of entries written. -/
def written (w : ContainerWriter) : Nat := w.entries.length

/-- Adds an entry. A file that is a class itself holds no second one. -/
def add (w : ContainerWriter) (e : Archive.Entry) : Except Error ContainerWriter :=
  if w.kind = .singleUnit ∧ w.written > 0 then
    .error (.write ("single class output already holds a unit, cannot add " ++ e.name))
  else .ok { w with entries := e :: w.entries }

/-- The bytes that an entry adds. -/
def part (w : ContainerWriter) (e : Archive.Entry) : List UInt8 :=
  match w.kind with
  | .archive => e.bytes
  | .singleUnit => e.data

/-- The bytes after all entries. -/
def closing (w : ContainerWriter) : List UInt8 :=
  match w.kind with
  | .archive => Archive.closing w.entries.reverse comment
  | .singleUnit => []

end ContainerWriter

end Untangle
