/-!
# Text as 16-bit units

String constants are sequences of UTF-16 units, and nothing keeps a surrogate from standing alone in
one. `Utf16` is that sequence; `chars` reads it, pairing surrogates where a high one is followed by
a low one and reporting every other surrogate as `none`.
-/

namespace Untangle

/-- A sequence of 16-bit units, lone surrogates included. -/
structure Utf16 where
  units : List UInt16
deriving DecidableEq, Repr, Inhabited

namespace Utf16

/-- The first half of a surrogate pair. -/
def isHigh (u : UInt16) : Bool := 0xD800 ≤ u && u < 0xDC00

/-- The second half of a surrogate pair. -/
def isLow (u : UInt16) : Bool := 0xDC00 ≤ u && u < 0xE000

/-- The units of one character: one, or a surrogate pair above U+FFFF. -/
def ofChar (c : Char) : List UInt16 :=
  if c.toNat < 0x10000 then [c.toNat.toUInt16]
  else
    [(0xD800 + (c.toNat - 0x10000) / 0x400).toUInt16, (0xDC00 + (c.toNat - 0x10000) % 0x400).toUInt16]

/-- The character a surrogate pair stands for. -/
def pair (high low : UInt16) : Char :=
  Char.ofNat (0x10000 + (high.toNat - 0xD800) * 0x400 + (low.toNat - 0xDC00))

/-- The units of a text. -/
def ofString (s : String) : Utf16 := ⟨s.toList.flatMap ofChar⟩

/-- Reads units into characters, `none` for a surrogate without its partner; `done` holds what was
read so far, last first. -/
def scan (done : List (Option Char)) : List UInt16 → List (Option Char)
  | [] => done.reverse
  | [u] => (if isHigh u || isLow u then none :: done else some (Char.ofNat u.toNat) :: done).reverse
  | u :: v :: rest =>
    if isHigh u && isLow v then scan (some (pair u v) :: done) rest
    else if isHigh u || isLow u then scan (none :: done) (v :: rest)
    else scan (some (Char.ofNat u.toNat) :: done) (v :: rest)

/-- The characters of the text, `none` for a surrogate without its partner. -/
def chars (s : Utf16) : List (Option Char) := scan [] s.units

/-- The text with every lone surrogate replaced by U+FFFD. -/
def lossy (s : Utf16) : String := String.ofList (s.chars.map (·.getD '�'))

/-- The text itself, if no surrogate stands alone in it. -/
def toString? (s : Utf16) : Option String :=
  if s.chars.all Option.isSome then some s.lossy else none

end Utf16

end Untangle
