import Untangle.Text.CodePage437
import Untangle.Text.Utf8

/-!
# The records of an archive

An archive lists its entries in a directory near its end, and the end record says where. Each entry is
preceded by a header of its own. Numbers are written with the lowest byte first.

Large archives have a second end record with wider numbers, and a locator that says where that one is.
-/

namespace Untangle

namespace Archive

/-! ### Fields -/

/-- A reader that may fail, of the bytes that come next. -/
abbrev Fields := StateT (List UInt8) Option

/-- The number that bytes stand for, the lowest first. -/
def number (bytes : List UInt8) : Nat := bytes.foldr (fun b n => b.toNat + 256 * n) 0

/-- The next `n` bytes. -/
def bytes (n : Nat) : Fields (List UInt8) := fun data =>
  let taken := data.take n
  if taken.length = n then some (taken, data.drop n) else none

/-- The number in the next `n` bytes. -/
def num (n : Nat) : Fields Nat := do return number (← bytes n)

/-- The mark that a record starts with. -/
def mark (expected : Nat) : Fields Unit := do
  if (← num 4) = expected then return () else failure

/-- A number in `n` bytes, the lowest first. -/
def encode : Nat → Nat → List UInt8
  | 0, _ => []
  | n + 1, v => UInt8.ofNat (v % 256) :: encode n (v / 256)

/-! ### The end -/

def endMark : Nat := 0x06054b50

/-- Where the directory is. -/
structure EndRecord where
  disk : Nat
  directoryDisk : Nat
  /-- Entries on this disk. -/
  entriesHere : Nat
  entries : Nat
  directorySize : Nat
  directoryOffset : Nat
  comment : List UInt8
deriving Repr, Inhabited

namespace EndRecord

/-- Reads an end record. -/
def read : Fields EndRecord := do
  mark endMark
  let disk ← num 2
  let directoryDisk ← num 2
  let entriesHere ← num 2
  let entries ← num 2
  let directorySize ← num 4
  let directoryOffset ← num 4
  let comment ← bytes (← num 2)
  return { disk, directoryDisk, entriesHere, entries, directorySize, directoryOffset, comment }

/-- Some number is at its limit, so that the wide end record has it. -/
def isFull (r : EndRecord) : Bool :=
  [r.disk, r.directoryDisk, r.entriesHere, r.entries].contains 0xFFFF ||
    [r.directorySize, r.directoryOffset].contains 0xFFFFFFFF

/-- The bytes of an end record. -/
def write (r : EndRecord) : List UInt8 :=
  encode 4 endMark ++ encode 2 r.disk ++ encode 2 r.directoryDisk ++ encode 2 r.entriesHere ++
    encode 2 r.entries ++ encode 4 r.directorySize ++ encode 4 r.directoryOffset ++
    encode 2 r.comment.length ++ r.comment

end EndRecord

/-- Where the wide end record is: the disk of the directory, and the record's offset. -/
def locator : Fields (Nat × Nat) := do
  mark 0x07064b50
  let disk ← num 4
  let offset ← num 8
  discard (num 4)
  return (disk, offset)

/-- The bytes of a locator. -/
def locatorBytes (offset : Nat) : List UInt8 :=
  encode 4 0x07064b50 ++ encode 4 0 ++ encode 8 offset ++ encode 4 1

/-- The end record with wide numbers. -/
structure WideEnd where
  disk : Nat
  directoryDisk : Nat
  entries : Nat
  directoryOffset : Nat
deriving Repr, Inhabited

namespace WideEnd

/-- Reads a wide end record. -/
def read : Fields WideEnd := do
  mark 0x06064b50
  discard (bytes 12)
  let disk ← num 4
  let directoryDisk ← num 4
  discard (num 8)
  let entries ← num 8
  discard (num 8)
  let directoryOffset ← num 8
  return { disk, directoryDisk, entries, directoryOffset }

/-- The bytes of a wide end record. -/
def write (r : WideEnd) (directorySize : Nat) : List UInt8 :=
  encode 4 0x06064b50 ++ encode 8 44 ++ encode 2 46 ++ encode 2 46 ++ encode 4 r.disk ++
    encode 4 r.directoryDisk ++ encode 8 r.entries ++ encode 8 r.entries ++ encode 8 directorySize ++
    encode 8 r.directoryOffset

end WideEnd

/-! ### Entries -/

/-- An entry of the directory. -/
structure DirectoryEntry where
  flags : Nat
  /-- How the data is packed: 0 not at all, 8 by `Inflate`. -/
  method : Nat
  checksum : Nat
  packedSize : Nat
  size : Nat
  name : String
  /-- Where the entry's own header is. -/
  offset : Nat
  /-- An extra field says how the data is encrypted. -/
  hasCipher : Bool := false
deriving Repr, Inhabited

namespace DirectoryEntry

/-- The data cannot be read without a password. -/
def isEncrypted (e : DirectoryEntry) : Bool := e.flags % 2 == 1 || e.hasCipher

/-- Bit 11 says that names are UTF-8. -/
def isUtf8 (flags : Nat) : Bool := flags / 2048 % 2 == 1

/-- What stands for a number that needs 64 bits. -/
def wide : Nat := 0xFFFFFFFF

/-- Takes the next wide number of an extra field if the narrow one asks for it. -/
def widened (narrow : Nat) (data : List UInt8) : Option (Nat × List UInt8) :=
  if narrow = wide then num 8 data else some (narrow, data)

/-- Takes wide numbers from an extra field, as far as it goes: size, packed size, offset. -/
def widen (e : DirectoryEntry) (data : List UInt8) : DirectoryEntry × Option (List UInt8) :=
  match widened e.size data with
  | none => (e, none)
  | some (size, data) =>
    let e := { e with size }
    match widened e.packedSize data with
    | none => (e, none)
    | some (packedSize, data) =>
      let e := { e with packedSize }
      match widened e.offset data with
      | none => (e, none)
      | some (offset, data) => ({ e with offset }, some data)

/-- The method that says that the data is encrypted, and leaves it to an extra field to say how. -/
def sealedMethod : Nat := 99

/-- The field about encryption: the version of the scheme, its vendor, its strength and how the data is
packed. -/
def cipher : Fields (Nat × Nat × Nat × Nat) := do return (← num 2, ← num 2, ← num 1, ← num 2)

/-- Goes through extra fields, in at most so many steps. Fields that break off end the walk. A field
about encryption has seven bytes and says something that is known; as many bytes after it are left
out. -/
def withExtra : Nat → DirectoryEntry → List UInt8 → Option DirectoryEntry
  | 0, e, _ => some e
  | steps + 1, e, data =>
    let header : Fields (Nat × Nat) := do return (← num 2, ← num 2)
    match header data with
    | none => some e
    | some ((kind, length), data) =>
      if kind = 0x9901 then
        if length ≠ 7 then none
        else
          match cipher data with
          | none => some e
          | some ((version, vendor, strength, method), data) =>
            if vendor = 0x4541 ∧ (version = 1 ∨ version = 2) ∧ 1 ≤ strength ∧ strength ≤ 3 then
              withExtra steps { e with method, hasCipher := true } (data.drop 7)
            else none
      else if kind = 1 then
        match e.widen data with
        | (e, none) => some e
        | (e, some rest) => withExtra steps e (rest.drop (length - (data.length - rest.length)))
      else withExtra steps e (data.drop length)

/-- Reads an entry of the directory. -/
def read : Fields DirectoryEntry := do
  mark 0x02014b50
  discard (bytes 4)
  let flags ← num 2
  let method ← num 2
  discard (bytes 4)
  let checksum ← num 4
  let packedSize ← num 4
  let size ← num 4
  let nameLength ← num 2
  let extraLength ← num 2
  let commentLength ← num 2
  discard (bytes 8)
  let offset ← num 4
  let name ← bytes nameLength
  let extra ← bytes extraLength
  discard (bytes commentLength)
  let name := if isUtf8 flags then Utf8.lossy name else CodePage437.decode name
  let e := { flags, method, checksum, packedSize, size, name, offset : DirectoryEntry }
  let e ← withExtra extra.length e extra
  if e.method = sealedMethod ∧ !e.hasCipher then failure
  return e

/-- The fields that the directory and an entry's own header share. -/
def shared (e : DirectoryEntry) (nameLength : Nat) : List UInt8 :=
  encode 2 20 ++ encode 2 e.flags ++ encode 2 e.method ++ encode 2 0 ++ encode 2 0x21 ++
    encode 4 e.checksum ++ encode 4 e.packedSize ++ encode 4 e.size ++ encode 2 nameLength ++ encode 2 0

/-- The name as bytes. -/
def nameBytes (e : DirectoryEntry) : List UInt8 := e.name.toUTF8.toList

/-- The bytes of an entry's own header. -/
def header (e : DirectoryEntry) : List UInt8 :=
  encode 4 0x04034b50 ++ e.shared e.nameBytes.length ++ e.nameBytes

/-- The bytes of an entry of the directory. -/
def write (e : DirectoryEntry) : List UInt8 :=
  encode 4 0x02014b50 ++ encode 2 20 ++ e.shared e.nameBytes.length ++ encode 2 0 ++ encode 2 0 ++
    encode 2 0 ++ encode 4 0 ++ encode 4 e.offset ++ e.nameBytes

end DirectoryEntry

end Archive

end Untangle
