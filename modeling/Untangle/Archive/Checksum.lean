/-!
# The checksum of archive entries

CRC-32, by a table of what each byte does to it.
-/

namespace Untangle

namespace Checksum

/-- Shifts one bit out. -/
def shift (c : UInt32) : UInt32 := if c &&& 1 = 1 then (c >>> 1) ^^^ 0xEDB88320 else c >>> 1

/-- What eight shifts do to each byte. -/
def table : Array UInt32 :=
  (Array.range 256).map fun n => (List.range 8).foldl (fun c _ => shift c) (UInt32.ofNat n)

/-- Adds a byte. -/
def step (c : UInt32) (b : UInt8) : UInt32 :=
  table.getD ((c ^^^ b.toUInt32) &&& 0xFF).toNat 0 ^^^ (c >>> 8)

/-- The checksum of some bytes. -/
def ofBytes (bytes : List UInt8) : UInt32 := bytes.foldl step 0xFFFFFFFF ^^^ 0xFFFFFFFF

end Checksum

end Untangle
