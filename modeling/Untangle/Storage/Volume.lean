import Std.Data.HashSet.Basic
import Untangle.Storage.FileSystem
import Untangle.Storage.PathName

/-!
# Files in memory

A tree of directories and files as a value. Places are lists of names from the root on.

Paths are followed part by part: a step into something that is no directory fails, and so does a name
of more than 255 bytes. A path of 4096 bytes or more is not followed at all.
-/

namespace Untangle

/-- Directories and files. -/
structure Volume where
  /-- Where relative paths start. -/
  current : List String
  dirs : Std.HashSet (List String)
  files : List (List String × List UInt8) := []
deriving Repr, Inhabited

namespace Volume

/-- A volume with a directory that paths start from, and no files. -/
def empty (current : List String) : Volume :=
  { current, dirs := .ofList ((List.range current.length).map fun n => current.take (n + 1)) }

/-- There is a directory at this place. -/
def isDir (v : Volume) (place : List String) : Bool := place.isEmpty || v.dirs.contains place

/-- There is a file at this place. -/
def isFile (v : Volume) (place : List String) : Bool := v.files.any (·.1 == place)

/-- A name that a file can have. -/
def isName (part : String) : Bool := part.utf8ByteSize ≤ 255 && !part.toList.contains '\x00'

/-- The parts of a path that name something. -/
def parts (path : String) : List String := (path.splitOn "/").filter fun p => p != "" && p != "."

/-- Where a path starts. -/
def start (v : Volume) (path : String) : List String :=
  if path.toList.head? = some '/' then [] else v.current

/-- Follows parts through directories. -/
def follow (v : Volume) (place : List String) : List String → Option (List String)
  | [] => some place
  | ".." :: rest => v.follow place.dropLast rest
  | part :: rest =>
    if isName part && v.isDir (place ++ [part]) then v.follow (place ++ [part]) rest else none

/-- The path can only mean a directory. -/
def meansDir (path : String) : Bool :=
  match (path.splitOn "/").getLast? with
  | some last => last == "" || last == "." || last == ".."
  | none => true

/-- A path that is too long to be followed. -/
def isTooLong (path : String) : Bool := path.utf8ByteSize ≥ 4096

/-- The place of the file that a path names; its directory has to be there. -/
def locate (v : Volume) (path : String) : Option (List String) := do
  if meansDir path || isTooLong path then none
  let ps := parts path
  let name ← ps.getLast?
  let dir ← v.follow (v.start path) ps.dropLast
  if isName name && !v.isDir (dir ++ [name]) then some (dir ++ [name]) else none

/-- Puts a file at a place. -/
def put (v : Volume) (place : List String) (data : List UInt8) : Volume :=
  { v with files := v.files.filter (fun f => f.1 != place) ++ [(place, data)] }

/-- The contents of a file. A file without contents cannot be read. -/
def read (v : Volume) (path : String) : Except Error (List UInt8) :=
  match (v.locate path).bind fun place => v.files.lookup place with
  | some (b :: data) => .ok (b :: data)
  | _ => .error .storage

/-- Bytes with others written over them from a position on. What is missing before it is zero. -/
def overwrite (old : List UInt8) (position : Nat) (data : List UInt8) : List UInt8 :=
  if data.isEmpty then old
  else
    (old ++ List.replicate (position - old.length) 0).take position ++ data ++
      old.drop (position + data.length)

/-- A file that is being written. -/
structure Pen where
  place : List String
  position : Nat := 0
deriving DecidableEq, Repr, Inhabited

/-- Writes on. -/
def write (v : Volume) (pen : Pen) (data : List UInt8) : Pen × Volume :=
  let old := (v.files.lookup pen.place).getD []
  ({ pen with position := pen.position + data.length }, v.put pen.place (overwrite old pen.position data))

/-- Makes the directories that parts name, from a place on. Those made before a failure stay. -/
def makeDirs (v : Volume) (place : List String) : List String → Except Error Unit × Volume
  | [] => (.ok (), v)
  | ".." :: rest => v.makeDirs place.dropLast rest
  | part :: rest =>
    let place := place ++ [part]
    if !isName part || v.isFile place then (.error .storage, v)
    else if v.isDir place then v.makeDirs place rest
    else { v with dirs := v.dirs.insert place }.makeDirs place rest

/-- Makes the directories of a path. A directory that is named by a dot in it has to be there. -/
def createDirs (v : Volume) (path : String) : Except Error Unit × Volume :=
  let ps := parts path
  if isTooLong path then (.error .storage, v)
  else if PathName.endsInside path then
    match v.makeDirs (v.start path) ps.dropLast with
    | (.ok (), v) => (if (v.follow (v.start path) ps).isSome then .ok () else .error .storage, v)
    | (.error e, v) => (.error e, v)
  else v.makeDirs (v.start path) ps

instance : FileSystem (StateM Volume) where
  OpenFile := Pen
  readFile path := fun v => (v.read path, v)
  createFile path := fun v =>
    match v.locate path with
    | some place => (.ok { place }, v.put place [])
    | none => (.error .storage, v)
  append pen data := fun v =>
    let (pen, v) := v.write pen data
    (.ok pen, v)
  createDirs path := fun v => v.createDirs path

end Volume

end Untangle
