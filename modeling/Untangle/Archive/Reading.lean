import Untangle.Archive.Checksum
import Untangle.Archive.Inflate
import Untangle.Archive.Record
import Untangle.Error

/-!
# Reading archives

The end record is looked for from the end of the data backwards, since a comment may follow it. What
stands before the archive, such as a program that unpacks it, shifts all offsets; by how much is told
by where the end record was found.
-/

namespace Untangle

namespace Archive

/-- A file in an archive. -/
structure Entry where
  name : String
  data : List UInt8
  isDir : Bool
deriving DecidableEq, Repr, Inhabited

/-- Names of directories end like this. -/
def isDirectoryName (name : String) : Bool :=
  match name.toList.getLast? with
  | some c => c == '/' || c == '\\'
  | none => false

/-- Reads fields from a place in the data. -/
def readAt {α : Type} (data : Array UInt8) (offset : Nat) (fields : Fields α) (size : Nat) : Option α :=
  (fields (data.extract offset (offset + size)).toList).map Prod.fst

/-! ### The directory -/

/-- The longest end record, with a comment. -/
def longestEnd : Nat := 22 + 65535

/-- Looks for a mark, first at `offset` and then ever nearer to the start, in at most so many more
steps. -/
def findBack (data : Array UInt8) (expected : Nat) : Nat → Nat → Option Nat
  | steps, offset =>
    if (readAt data offset (mark expected) 4).isSome then some offset
    else
      match steps, offset with
      | steps + 1, offset + 1 => findBack data expected steps offset
      | _, _ => none

/-- The end record and where it is. -/
def findEnd (data : Array UInt8) : Option (EndRecord × Nat) := do
  if data.size < 22 then none
  let offset ← findBack data endMark 65535 (data.size - 22)
  return (← readAt data offset EndRecord.read longestEnd, offset)

/-- Looks for the wide end record, first at `offset` and then ever further on, up to `last`. -/
def findWide (data : Array UInt8) (last : Nat) : Nat → Nat → Option (WideEnd × Nat)
  | 0, _ => none
  | steps + 1, offset =>
    if offset > last then none
    else
      match readAt data offset (mark 0x06064b50) 4 with
      | some _ => (readAt data offset WideEnd.read 56).map (·, offset)
      | none => findWide data last steps (offset + 1)

/-- Where the directory starts, how many entries it has, and by how much the offsets in it are
shifted. -/
structure Directory where
  start : Nat
  entries : Nat
  shift : Nat
deriving Repr, Inhabited

/-- Finds the directory by the end record at `offset`. -/
def Directory.narrow (r : EndRecord) (offset : Nat) : Option Directory :=
  if r.directorySize + r.directoryOffset ≤ offset then
    let shift := offset - r.directorySize - r.directoryOffset
    some ⟨r.directoryOffset + shift, r.entriesHere, shift⟩
  else none

/-- An offset with a shift, which has to fit into 64 bits. -/
def shifted (offset shift : Nat) : Option Nat :=
  if offset + shift < 1 <<< 64 then some (offset + shift) else none

/-- Finds the directory by the wide end record, which should be at `nominal`. -/
def Directory.wide (data : Array UInt8) (r : EndRecord) (offset disk nominal : Nat) : Option Directory := do
  if !r.isFull && r.disk != disk then none
  if offset < 60 then none
  let (w, found) ← findWide data (offset - 60) (data.size + 1) nominal
  if w.disk != w.directoryDisk then none
  return ⟨← shifted w.directoryOffset (found - nominal), w.entries, found - nominal⟩

/-- Finds the directory. -/
def findDirectory (data : Array UInt8) : Option Directory := do
  let (r, offset) ← findEnd data
  if !r.isFull && r.disk != r.directoryDisk then none
  let distance := 20 + 22 + r.comment.length
  let located := if distance ≤ data.size then readAt data (data.size - distance) locator 20 else none
  match located with
  | some (disk, nominal) => Directory.wide data r offset disk nominal
  | none => Directory.narrow r offset

/-- Reads entries of the directory. -/
def entriesFrom : Nat → List DirectoryEntry → List UInt8 → Option (List DirectoryEntry)
  | 0, done, _ => some done.reverse
  | n + 1, done, data =>
    match DirectoryEntry.read data with
    | none => none
    | some (e, data) => entriesFrom n (e :: done) data

/-- The entries of an archive, offsets put right. -/
def directoryEntries (data : Array UInt8) : Option (List DirectoryEntry) := do
  let d ← findDirectory data
  let entries ← entriesFrom d.entries [] (data.extract d.start data.size).toList
  entries.mapM fun e => do return { e with offset := ← shifted e.offset d.shift }

/-! ### Entries -/

/-- The data of an entry as it is packed: after its own header, as much as there is. -/
def packed (data : Array UInt8) (e : DirectoryEntry) : Option (List UInt8) := do
  let header : Fields (Nat × Nat) := do
    mark 0x04034b50
    discard (bytes 22)
    return (← num 2, ← num 2)
  let (nameLength, extraLength) ← readAt data e.offset header 30
  let start := e.offset + 30 + nameLength + extraLength
  return (data.extract start (start + e.packedSize)).toList

/-- Reads an entry. Damage to the archive itself is told from damage to the entry's data. -/
def readEntry (data : Array UInt8) (e : DirectoryEntry) : Except Error Entry := do
  if e.isEncrypted then throw .archive
  let some packed := packed data e | throw .archive
  let unpacked ← match e.method with
    | 0 => pure (some packed)
    | 8 => pure (Inflate.unpack packed)
    | _ => throw .archive
  let some contents := unpacked | throw .storage
  if (Checksum.ofBytes contents).toNat = e.checksum then
    return ⟨e.name, contents, isDirectoryName e.name⟩
  else throw .storage

/-- Reads all entries of an archive. -/
def read (bytes : List UInt8) : Except Error (List Entry) := do
  let data := bytes.toArray
  let some entries := directoryEntries data | throw .archive
  entries.mapM (readEntry data)

end Archive

end Untangle
