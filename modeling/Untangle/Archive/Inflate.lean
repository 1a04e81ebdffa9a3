import Untangle.Archive.Huffman

/-!
# Unpacking

Packed data is a sequence of blocks. A block holds its bytes as they are, or literals and copies of
what came before, in a fixed code or in one that the block spells out. There is no result if the data
is malformed or breaks off.

Steps are counted against the number of bits: every symbol takes one bit at least, so a run that is
given as many steps as there are bits never stops for want of them.
-/

namespace Untangle

namespace Inflate

/-- The bytes unpacked so far. -/
abbrev Output := Array UInt8

/-! ### Copies -/

/-- The shortest length of symbols 257 and up, and how many bits are added to it. -/
def lengthCodes : Array (Nat × Nat) :=
  #[(3, 0), (4, 0), (5, 0), (6, 0), (7, 0), (8, 0), (9, 0), (10, 0), (11, 1), (13, 1), (15, 1), (17, 1),
    (19, 2), (23, 2), (27, 2), (31, 2), (35, 3), (43, 3), (51, 3), (59, 3), (67, 4), (83, 4), (99, 4),
    (115, 4), (131, 5), (163, 5), (195, 5), (227, 5), (258, 0)]

/-- The shortest distance of each symbol, and how many bits are added to it. -/
def distanceCodes : Array (Nat × Nat) :=
  #[(1, 0), (2, 0), (3, 0), (4, 0), (5, 1), (7, 1), (9, 2), (13, 2), (17, 3), (25, 3), (33, 4), (49, 4),
    (65, 5), (97, 5), (129, 6), (193, 6), (257, 7), (385, 7), (513, 8), (769, 8), (1025, 9), (1537, 9),
    (2049, 10), (3073, 10), (4097, 11), (6145, 11), (8193, 12), (12289, 12), (16385, 13), (24577, 13)]

/-- The number that a symbol and the bits after it stand for. -/
def extended (codes : Array (Nat × Nat)) (symbol : Nat) (s : BitStream) : Option (Nat × BitStream) := do
  let (least, bits) ← codes[symbol]?
  let (more, s) ← s.take bits
  return (least + more, s)

/-- Repeats `n` bytes from `distance` bytes back, which may be bytes just repeated. Before the first
byte there are zeros. -/
def copy (distance : Nat) : Nat → Output → Output
  | 0, out => out
  | n + 1, out =>
    let b := if distance ≤ out.size then out.getD (out.size - distance) 0 else 0
    copy distance n (out.push b)

/-- Unpacks symbols up to the end of the block, in at most so many steps. -/
def symbols (literals distances : Huffman) : Nat → BitStream → Output → Option (BitStream × Output)
  | 0, _, _ => none
  | steps + 1, s, out =>
    match literals.decode s with
    | none => none
    | some (symbol, s) =>
      if symbol < 256 then symbols literals distances steps s (out.push (UInt8.ofNat symbol))
      else if symbol = 256 then some (s, out)
      else
        let found := do
          let (length, s) ← extended lengthCodes (symbol - 257) s
          let (symbol, s) ← distances.decode s
          let (distance, s) ← extended distanceCodes symbol s
          return (length, distance, s)
        match found with
        | none => none
        | some (length, distance, s) => symbols literals distances steps s (copy distance length out)

/-! ### Codes -/

/-- The fixed code of literals and lengths. -/
def fixedLiterals : Option Huffman :=
  Huffman.ofLengths (List.replicate 144 8 ++ List.replicate 112 9 ++ List.replicate 24 7 ++
    List.replicate 8 8)

/-- The fixed code of distances. -/
def fixedDistances : Option Huffman := Huffman.ofLengths (List.replicate 32 5)

/-- The order in which the lengths of the code for code lengths stand. -/
def sizeOrder : List Nat := [16, 17, 18, 0, 8, 7, 9, 6, 10, 5, 11, 4, 12, 3, 13, 2, 14, 1, 15]

/-- Takes `n` numbers of `bits` bits each. -/
def numbers (bits : Nat) : Nat → List Nat → BitStream → Option (List Nat × BitStream)
  | 0, done, s => some (done.reverse, s)
  | n + 1, done, s => do
    let (v, s) ← s.take bits
    numbers bits n (v :: done) s

/-- Takes code lengths until there are `total`. Some symbols stand for a length, others repeat the
length before, or zeros. `done` holds the lengths taken, last first. -/
def codeLengths (code : Huffman) (total : Nat) : Nat → List Nat → BitStream →
    Option (List Nat × BitStream)
  | 0, _, _ => none
  | steps + 1, done, s =>
    if done.length = total then some (done.reverse, s)
    else if done.length > total then none
    else do
      let (symbol, s) ← code.decode s
      match symbol with
      | 16 =>
        let previous ← done.head?
        let (n, s) ← s.take 2
        codeLengths code total steps (List.replicate (n + 3) previous ++ done) s
      | 17 =>
        let (n, s) ← s.take 3
        codeLengths code total steps (List.replicate (n + 3) 0 ++ done) s
      | 18 =>
        let (n, s) ← s.take 7
        codeLengths code total steps (List.replicate (n + 11) 0 ++ done) s
      | length => codeLengths code total steps (length :: done) s

/-- Takes the codes that a block spells out: for literals and lengths, and for distances. -/
def spelledCodes (s : BitStream) : Option (Huffman × Huffman × BitStream) := do
  let (literals, s) ← s.take 5
  let (distances, s) ← s.take 5
  let (sizes, s) ← s.take 4
  if literals + 257 > 286 ∨ distances + 1 > 30 then none
  let (sizes, s) ← numbers 3 (sizes + 4) [] s
  let sized := sizeOrder.zip sizes
  let code ← Huffman.ofLengths ((List.range 19).map fun i => (sized.lookup i).getD 0)
  let total := literals + 257 + distances + 1
  let (lengths, s) ← codeLengths code total (total + 1) [] s
  let literalCode ← Huffman.ofLengths (lengths.take (literals + 257))
  let distanceCode ← Huffman.ofLengths (lengths.drop (literals + 257))
  return (literalCode, distanceCode, s)

/-! ### Blocks -/

/-- Takes `n` bytes as they are. -/
def verbatim : Nat → BitStream → Output → Option (BitStream × Output)
  | 0, s, out => some (s, out)
  | n + 1, s, out =>
    match s.take 8 with
    | none => none
    | some (b, s) => verbatim n s (out.push (UInt8.ofNat b))

/-- Takes a block that is not packed: its length, the same inverted, and its bytes. -/
def stored (s : BitStream) (out : Output) : Option (BitStream × Output) := do
  let (length, s) ← s.align.take 16
  let (inverted, s) ← s.take 16
  if length + inverted = 65535 then verbatim length s out else none

/-- Takes the contents of a block of this kind. -/
def block (steps kind : Nat) (s : BitStream) (out : Output) : Option (BitStream × Output) :=
  match kind with
  | 0 => stored s out
  | 1 => do symbols (← fixedLiterals) (← fixedDistances) steps s out
  | 2 => do
    let (literals, distances, s) ← spelledCodes s
    symbols literals distances steps s out
  | _ => none

/-- Takes blocks up to the last one, in at most so many steps. -/
def blocks : Nat → BitStream → Output → Option Output
  | 0, _, _ => none
  | steps + 1, s, out => do
    let (last, s) ← s.take 1
    let (kind, s) ← s.take 2
    let (s, out) ← block steps kind s out
    if last = 1 then some out else blocks steps s out

/-- Unpacks data. -/
def unpack (packed : List UInt8) : Option (List UInt8) :=
  (blocks (8 * packed.length + 1) (.ofBytes packed) #[]).map Array.toList

end Inflate

end Untangle
