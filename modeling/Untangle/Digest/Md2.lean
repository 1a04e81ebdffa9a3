/-!
# MD2

A digest of sixteen bytes. The message is padded to whole blocks, a checksum block is added, and
each block is mixed into a buffer of 48 bytes.
-/

namespace Untangle.Md2

/-- A permutation of the bytes. -/
def substitution : Array UInt8 :=
  #[41,46,67,201,162,216,124,1,61,54,84,161,236,240,6,19,98,167,5,243,192,199,115,140,152,147,43,217,188,76,130,202,30,
    155,87,60,253,212,224,22,103,66,111,24,138,23,229,18,190,78,196,214,218,158,222,73,160,251,245,142,187,47,238,122,
    169,104,121,145,21,178,7,63,148,194,16,137,11,34,95,33,128,127,93,154,90,144,50,39,53,62,204,231,191,247,151,3,255,
    25,48,179,72,165,181,209,215,94,146,42,172,86,170,198,79,184,56,210,150,164,125,182,118,252,107,226,156,116,4,241,
    69,157,112,89,100,113,135,32,134,91,207,101,230,45,168,2,27,96,37,173,174,176,185,246,28,70,97,105,52,64,126,15,85,
    71,163,35,221,81,175,58,195,92,249,206,186,197,234,38,44,83,13,110,133,40,132,9,211,223,205,244,65,129,77,82,106,
    220,55,200,108,193,171,250,36,225,123,8,12,189,177,74,120,136,149,139,227,99,232,109,233,203,213,254,59,0,29,57,242,
    239,183,14,102,88,208,228,166,119,114,248,235,117,75,10,49,68,80,180,143,237,31,26,219,153,141,51,159,17,131,20]

/-- Looks a byte up in the permutation. -/
def sub (b : UInt8) : UInt8 := substitution.getD b.toNat 0

/-- Fills the last block with as many bytes as are missing, each of which says how many they are. -/
def padded (message : List UInt8) : List UInt8 :=
  let missing := 16 - message.length % 16
  message ++ List.replicate missing (UInt8.ofNat missing)

/-- The blocks of a message, of sixteen bytes each. -/
def blocks (bytes : List UInt8) : List (List UInt8) :=
  (List.range (bytes.length / 16)).map fun i => (bytes.drop (16 * i)).take 16

/-- Mixes one block into the checksum; `last` is the checksum byte made last. -/
def mixChecksum (last : UInt8) : List UInt8 → List UInt8 → List UInt8 × UInt8
  | c :: cs, b :: bs =>
    let c := c ^^^ sub (b ^^^ last)
    let (cs, last) := mixChecksum c cs bs
    (c :: cs, last)
  | _, _ => ([], last)

/-- The checksum of a padded message. -/
def checksum (message : List UInt8) : List UInt8 :=
  ((blocks message).foldl (fun (cs, last) block => mixChecksum last cs block)
    (List.replicate 16 0, 0)).1

/-- Goes once through the buffer, each byte changed by the one before it. -/
def pass (t : UInt8) : List UInt8 → List UInt8 × UInt8
  | [] => ([], t)
  | x :: xs =>
    let x := x ^^^ sub t
    let (xs, t) := pass x xs
    (x :: xs, t)

/-- Mixes one block into the state. -/
def mix (state block : List UInt8) : List UInt8 :=
  let buffer := state ++ block ++ state.zipWith (· ^^^ ·) block
  let round := fun ((buffer : List UInt8), (t : UInt8)) (i : Nat) =>
    let (buffer, t) := pass t buffer
    (buffer, t + UInt8.ofNat i)
  ((List.range 18).foldl round (buffer, 0)).1.take 16

/-- The digest of a message. -/
def digest (message : List UInt8) : List UInt8 :=
  let message := padded message
  (blocks (message ++ checksum message)).foldl mix (List.replicate 16 0)

end Untangle.Md2
