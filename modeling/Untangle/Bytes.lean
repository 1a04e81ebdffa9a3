import Untangle.Error

/-!
# Big-endian bytes

Class files are read from the front of a list of bytes and written as lists of bytes, numbers most
significant byte first. A reader takes what it needs and leaves the rest; it fails with `endOfData`
when the list is too short.
-/

namespace Untangle

/-- Reads a value from the front of the bytes that are left. -/
abbrev Reader := StateT (List UInt8) (Except Error)

namespace Bytes

/-- Two bytes as a number. -/
def join16 (a b : UInt8) : UInt16 := UInt16.ofNat (a.toNat * 256 + b.toNat)

/-- Four bytes as a number. -/
def join32 (a b c d : UInt8) : UInt32 :=
  UInt32.ofNat (((a.toNat * 256 + b.toNat) * 256 + c.toNat) * 256 + d.toNat)

/-- Two numbers of four bytes as one of eight. -/
def join64 (high low : UInt32) : UInt64 := UInt64.ofNat (high.toNat * 4294967296 + low.toNat)

/-- The two bytes of a number. -/
def be16 (n : UInt16) : List UInt8 := [UInt8.ofNat (n.toNat / 256), UInt8.ofNat n.toNat]

/-- The four bytes of a number. -/
def be32 (n : UInt32) : List UInt8 :=
  [UInt8.ofNat (n.toNat / 16777216), UInt8.ofNat (n.toNat / 65536), UInt8.ofNat (n.toNat / 256),
   UInt8.ofNat n.toNat]

/-- The eight bytes of a number. -/
def be64 (n : UInt64) : List UInt8 :=
  be32 (UInt32.ofNat (n.toNat / 4294967296)) ++ be32 (UInt32.ofNat n.toNat)

/-- A count of entries, kept to sixteen bits. -/
def count16 (n : Nat) : List UInt8 := be16 (UInt16.ofNat n)

/-- A length in bytes, kept to thirty-two bits. -/
def count32 (n : Nat) : List UInt8 := be32 (UInt32.ofNat n)

/-- Reads one byte. -/
def u8 : Reader UInt8
  | a :: rest => .ok (a, rest)
  | [] => .error .endOfData

/-- Reads a number of two bytes. -/
def u16 : Reader UInt16
  | a :: b :: rest => .ok (join16 a b, rest)
  | _ => .error .endOfData

/-- Reads a number of four bytes. -/
def u32 : Reader UInt32
  | a :: b :: c :: d :: rest => .ok (join32 a b c d, rest)
  | _ => .error .endOfData

/-- Reads a number of eight bytes. -/
def u64 : Reader UInt64 := do
  let high ← u32
  let low ← u32
  return join64 high low

/-- Cuts off the first `n` entries of a list that has that many; `done` holds those already cut,
last first. -/
def cut {α : Type} (done : List α) : Nat → List α → Option (List α × List α)
  | 0, rest => some (done.reverse, rest)
  | n + 1, a :: rest => cut (a :: done) n rest
  | _ + 1, [] => none

/-- Reads exactly `n` bytes. -/
def take (n : Nat) : Reader (List UInt8) := fun s =>
  match cut [] n s with
  | some (bytes, rest) => .ok (bytes, rest)
  | none => .error .endOfData

/-- Reads `n` values one after the other; `done` holds those already read, last first. -/
def repeated {α : Type} (read : Reader α) : Nat → List α → Reader (List α)
  | 0, done => fun s => .ok (done.reverse, s)
  | n + 1, done => fun s =>
    match read s with
    | .ok (a, rest) => repeated read n (a :: done) rest
    | .error e => .error e

/-- Reads a sixteen-bit count and that many values. -/
def counted {α : Type} (read : Reader α) : Reader (List α) := do
  let n ← u16
  repeated read n.toNat []

/-- Runs a reader on a whole byte string, whatever it leaves. -/
def parse {α : Type} (read : Reader α) (bytes : List UInt8) : Except Error α :=
  (read bytes).map Prod.fst

end Bytes

end Untangle
