/-!
# Hexadecimal text

Numbers and byte strings written in base sixteen. Byte strings are written two lower-case digits a
byte, most significant first, and `toBytes?` reads that form back.
-/

namespace Untangle.Hex

/-- The lower-case digit of a number below sixteen. -/
def digit (n : Nat) : Char := if n < 10 then Char.ofNat (48 + n) else Char.ofNat (87 + n)

/-- The upper-case digit of a number below sixteen. -/
def upperDigit (n : Nat) : Char := if n < 10 then Char.ofNat (48 + n) else Char.ofNat (55 + n)

/-- The last `width` digits of a number, zeros in front where it has fewer. -/
def padded (write : Nat → Char) : Nat → Nat → List Char
  | 0, _ => []
  | width + 1, n => padded write width (n / 16) ++ [write (n % 16)]

/-- Lower-case, exactly `width` digits. -/
def lower (width n : Nat) : String := String.ofList (padded digit width n)

/-- Upper-case, exactly `width` digits. -/
def upper (width n : Nat) : String := String.ofList (padded upperDigit width n)

/-- Lower-case, without leading zeros. -/
def short (n : Nat) : String := String.ofList (Nat.toDigits 16 n)

/-- The two digits of a byte. -/
def byte (b : UInt8) : List Char := [digit (b.toNat / 16), digit (b.toNat % 16)]

/-- A byte string as text, two digits a byte. -/
def ofBytes (bytes : List UInt8) : String := String.ofList (bytes.flatMap byte)

/-- The value of a digit of either case. -/
def value? (c : Char) : Option Nat :=
  if '0' ≤ c ∧ c ≤ '9' then some (c.toNat - 48)
  else if 'a' ≤ c ∧ c ≤ 'f' then some (c.toNat - 87)
  else if 'A' ≤ c ∧ c ≤ 'F' then some (c.toNat - 55)
  else none

/-- The number a text spells in base sixteen; nothing for an empty text or a foreign character. -/
def toNat? (text : String) : Option Nat :=
  match text.toList with
  | [] => none
  | cs => cs.foldl (fun acc c => do return (← acc) * 16 + (← value? c)) (some 0)

/-- Reads pairs of digits; `done` holds the bytes read so far, last first. -/
def readPairs (done : List UInt8) : List Char → Option (List UInt8)
  | [] => some done.reverse
  | [_] => none
  | hi :: lo :: rest =>
    match value? hi, value? lo with
    | some h, some l => readPairs (UInt8.ofNat (h * 16 + l) :: done) rest
    | _, _ => none

/-- The bytes a text spells, two digits each. -/
def toBytes? (text : String) : Option (List UInt8) := readPairs [] text.toList

end Untangle.Hex
