/-!
# Streams of bits

Bytes read bit by bit, from the lowest bit of each byte on.
-/

namespace Untangle

/-- Bits still to be read. -/
structure BitStream where
  /-- The bits of bytes that were begun, the next one lowest. -/
  held : Nat
  /-- How many bits are held. -/
  count : Nat
  rest : List UInt8
deriving DecidableEq, Repr, Inhabited

namespace BitStream

/-- The bits of some bytes. -/
def ofBytes (bytes : List UInt8) : BitStream := ⟨0, 0, bytes⟩

/-- Takes `n` bits as a number, the first one lowest. -/
def takeFrom (n held count : Nat) : List UInt8 → Option (Nat × BitStream)
  | [] => if n ≤ count then some (held % (1 <<< n), ⟨held >>> n, count - n, []⟩) else none
  | b :: rest =>
    if n ≤ count then some (held % (1 <<< n), ⟨held >>> n, count - n, b :: rest⟩)
    else takeFrom n (held + (b.toNat <<< count)) (count + 8) rest

/-- Takes `n` bits as a number, the first one lowest; `none` if there are not as many. -/
def take (n : Nat) (s : BitStream) : Option (Nat × BitStream) := takeFrom n s.held s.count s.rest

/-- Leaves out what remains of a byte that was begun. -/
def align (s : BitStream) : BitStream :=
  { s with held := s.held >>> (s.count % 8), count := s.count - s.count % 8 }

end BitStream

end Untangle
