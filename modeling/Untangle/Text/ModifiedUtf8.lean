import Untangle.Error
import Untangle.Text.Utf16

/-!
# Modified UTF-8

The byte form of text in a constant pool: one to three bytes a unit, never four, with a zero unit
written in two bytes so that no byte of the encoding is zero. Reading is lenient: it also takes a
raw zero byte and forms longer than needed.
-/

namespace Untangle

namespace ModifiedUtf8

/-- The bytes of one unit. -/
def encodeUnit (u : UInt16) : List UInt8 :=
  if 0x0001 ≤ u ∧ u ≤ 0x007F then [u.toUInt8]
  else if u ≤ 0x07FF then [(u >>> 6).toUInt8 ||| 0xC0, (u &&& 0x3F).toUInt8 ||| 0x80]
  else
    [(u >>> 12).toUInt8 ||| 0xE0, ((u >>> 6) &&& 0x3F).toUInt8 ||| 0x80, (u &&& 0x3F).toUInt8 ||| 0x80]

/-- The bytes of a text. -/
def encode (s : Utf16) : List UInt8 := s.units.flatMap encodeUnit

/-- A byte that may only follow another one of its sequence. -/
def isTrailing (b : UInt8) : Bool := b &&& 0xC0 == 0x80

/-- The unit of a two-byte form. -/
def join2 (b c : UInt8) : UInt16 := ((b &&& 0x1F).toUInt16 <<< 6) ||| (c &&& 0x3F).toUInt16

/-- The unit of a three-byte form. -/
def join3 (b c d : UInt8) : UInt16 :=
  ((b &&& 0x0F).toUInt16 <<< 12) ||| ((c &&& 0x3F).toUInt16 <<< 6) ||| (d &&& 0x3F).toUInt16

/-- Reads units from the bytes at `offset`; `done` holds those read so far, last first. A sequence
that is cut short or has a wrong trailing byte is reported at its first byte. -/
def scan (offset : Nat) (done : List UInt16) : List UInt8 → Except Error (List UInt16)
  | [] => .ok done.reverse
  | b :: rest =>
    if b &&& 0x80 == 0 then scan (offset + 1) (b.toUInt16 :: done) rest
    else if b &&& 0xE0 == 0xC0 then
      match rest with
      | c :: rest =>
        if isTrailing c then scan (offset + 2) (join2 b c :: done) rest
        else .error (.invalidModifiedUtf8 offset)
      | [] => .error (.invalidModifiedUtf8 offset)
    else if b &&& 0xF0 == 0xE0 then
      match rest with
      | c :: d :: rest =>
        if isTrailing c && isTrailing d then scan (offset + 3) (join3 b c d :: done) rest
        else .error (.invalidModifiedUtf8 offset)
      | _ => .error (.invalidModifiedUtf8 offset)
    else .error (.invalidModifiedUtf8 offset)

/-- The text of a byte string. -/
def decode (bytes : List UInt8) : Except Error Utf16 := (scan 0 [] bytes).map Utf16.mk

end ModifiedUtf8

end Untangle
