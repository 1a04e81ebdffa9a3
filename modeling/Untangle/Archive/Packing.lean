import Untangle.Archive.Record

/-!
# Packing

Data becomes a sequence of blocks that hold their bytes as they are, behind a byte that tells the last
block from the others, the number of bytes, and the same number inverted.
-/

namespace Untangle

namespace Archive

/-- The most bytes that a block holds. -/
def blockLimit : Nat := 65535

/-- A block with its bytes as they are. -/
def plainBlock (last : Bool) (data : List UInt8) : List UInt8 :=
  (if last then 1 else 0) :: (encode 2 data.length ++ encode 2 (blockLimit - data.length) ++ data)

/-- Blocks for data that fills at most so many before the last one. -/
def plainBlocks : Nat → List UInt8 → List UInt8
  | 0, data => plainBlock true data
  | n + 1, data =>
    if data.length ≤ blockLimit then plainBlock true data
    else plainBlock false (data.take blockLimit) ++ plainBlocks n (data.drop blockLimit)

/-- Packs data. -/
def pack (data : List UInt8) : List UInt8 := plainBlocks (data.length / blockLimit) data

end Archive

end Untangle
