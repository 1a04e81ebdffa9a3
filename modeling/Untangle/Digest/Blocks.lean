/-!
# Blocks of words

Three digests read a message in the same way: it is closed by a one bit, zeros and its length in bits,
so that it fills blocks of 64 bytes, and each block is read as sixteen words. They differ in the
order of the bytes in a word.
-/

namespace Untangle.Digest

/-- The word of four bytes, most significant first. -/
def bigEndian : List UInt8 → UInt32
  | [a, b, c, d] => a.toUInt32 <<< 24 ||| b.toUInt32 <<< 16 ||| c.toUInt32 <<< 8 ||| d.toUInt32
  | _ => 0

/-- The word of four bytes, least significant first. -/
def littleEndian (bytes : List UInt8) : UInt32 := bigEndian bytes.reverse

/-- The four bytes of a word, most significant first. -/
def bytesBig (w : UInt32) : List UInt8 :=
  [(w >>> 24).toUInt8, (w >>> 16).toUInt8, (w >>> 8).toUInt8, w.toUInt8]

/-- The four bytes of a word, least significant first. -/
def bytesLittle (w : UInt32) : List UInt8 := (bytesBig w).reverse

/-- The length of a message in bits, as eight bytes, most significant first. -/
def bitLength (message : List UInt8) : List UInt8 :=
  let n := message.length * 8
  bytesBig (UInt32.ofNat (n / 4294967296)) ++ bytesBig (UInt32.ofNat n)

/-- Closes a message with a one bit, zeros, and eight bytes for its length. -/
def padded (message length : List UInt8) : List UInt8 :=
  let zeros := (119 - message.length % 64) % 64
  message ++ (0x80 :: List.replicate zeros 0) ++ length

/-- The words of one block. -/
def words (word : List UInt8 → UInt32) (block : List UInt8) : Array UInt32 :=
  ((List.range 16).map fun i => word ((block.drop (4 * i)).take 4)).toArray

/-- The blocks of a padded message, as words. -/
def blocks (word : List UInt8 → UInt32) (bytes : List UInt8) : List (Array UInt32) :=
  (List.range (bytes.length / 64)).map fun i => words word ((bytes.drop (64 * i)).take 64)

/-- Turns a word left by `n` bits. -/
def rotate (w : UInt32) (n : UInt32) : UInt32 := w <<< n ||| w >>> (32 - n)

end Untangle.Digest
