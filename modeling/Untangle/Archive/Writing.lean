import Untangle.Archive.Packing
import Untangle.Archive.Reading

/-!
# Writing archives

Entries one after the other, then the directory, then the end record with a comment. So an entry can
be written as soon as it is known, and the rest depends on all of them.
-/

namespace Untangle

namespace Archive

/-- The name an entry is written under. Names of directories end with a slash. -/
def Entry.writtenName (e : Entry) : String :=
  if e.isDir && !isDirectoryName e.name then e.name ++ "/" else e.name

/-- What is written for an entry: a directory has no data. -/
def Entry.writtenData (e : Entry) : List UInt8 := if e.isDir then [] else e.data

/-- How an entry is packed: a directory is not. -/
def Entry.method (e : Entry) : Nat := if e.isDir then 0 else 8

/-- The data of an entry as it is written. -/
def Entry.packedData (e : Entry) : List UInt8 := if e.isDir then [] else pack e.data

/-- The directory's entry for a file that is written at an offset. -/
def Entry.listed (e : Entry) (offset : Nat) : DirectoryEntry :=
  { flags := if e.writtenName.toList.all (·.val < 128) then 0 else 2048
    method := e.method
    checksum := (Checksum.ofBytes e.writtenData).toNat
    packedSize := e.packedData.length
    size := e.writtenData.length
    name := e.writtenName
    offset }

/-- What an entry adds to an archive: its own header and its data. -/
def Entry.bytes (e : Entry) : List UInt8 := (e.listed 0).header ++ e.packedData

/-- The directory's entries for files that are written one after the other, from an offset on. -/
def listing (offset : Nat) : List Entry → List DirectoryEntry
  | [] => []
  | e :: rest =>
    let l := e.listed offset
    l :: listing (offset + l.header.length + l.packedSize) rest

/-- The end of an archive. With more entries than 16 bits count, a wide end record comes first. -/
def ending (count directoryOffset directorySize : Nat) (comment : String) : List UInt8 :=
  let narrow := (EndRecord.mk 0 0 (min count 0xFFFF) (min count 0xFFFF) directorySize directoryOffset
    comment.toUTF8.toList).write
  if count < 0xFFFF then narrow
  else
    (WideEnd.mk 0 0 count directoryOffset).write directorySize ++
      locatorBytes (directoryOffset + directorySize) ++ narrow

/-- What follows the entries of an archive: the directory and the end. -/
def closing (entries : List Entry) (comment : String) : List UInt8 :=
  let listed := listing 0 entries
  let offset := listed.foldl (fun n l => n + l.header.length + l.packedSize) 0
  let directory := (listed.map DirectoryEntry.write).flatten
  directory ++ ending entries.length offset directory.length comment

/-- The bytes of an archive. -/
def write (entries : List Entry) (comment : String) : List UInt8 :=
  (entries.map Entry.bytes).flatten ++ closing entries comment

end Archive

end Untangle
