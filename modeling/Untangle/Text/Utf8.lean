/-!
# UTF-8 with replacements

Reading bytes as UTF-8 when they may be anything. A sequence that breaks off, and a byte that starts
none, reads as the replacement character; reading goes on with the byte at which it broke off.
-/

namespace Untangle

namespace Utf8

/-- Where reading stands. -/
inductive Progress where
  | between
  /-- Inside a sequence: how many bytes are to come, what those read so far stand for, and between
  which bytes the next one has to be. -/
  | inside (left value : Nat) (low high : UInt8)
deriving DecidableEq, Repr, Inhabited

/-- Starts a sequence; `done` holds the characters read, last first. -/
def begin (b : UInt8) (done : List Char) : Progress × List Char :=
  let n := b.toNat
  if n < 0x80 then (.between, Char.ofNat n :: done)
  else if n < 0xC2 then (.between, '�' :: done)
  else if n < 0xE0 then (.inside 1 (n - 0xC0) 0x80 0xBF, done)
  else if n < 0xF0 then
    (.inside 2 (n - 0xE0) (if n = 0xE0 then 0xA0 else 0x80) (if n = 0xED then 0x9F else 0xBF), done)
  else if n < 0xF5 then
    (.inside 3 (n - 0xF0) (if n = 0xF0 then 0x90 else 0x80) (if n = 0xF4 then 0x8F else 0xBF), done)
  else (.between, '�' :: done)

/-- Reads the next byte. -/
def step : Progress × List Char → UInt8 → Progress × List Char
  | (.between, done), b => begin b done
  | (.inside left value low high, done), b =>
    if low ≤ b ∧ b ≤ high then
      let value := value * 64 + (b.toNat - 0x80)
      if left ≤ 1 then (.between, Char.ofNat value :: done)
      else (.inside (left - 1) value 0x80 0xBF, done)
    else begin b ('�' :: done)

/-- The text that bytes stand for, with replacements. -/
def lossy (bytes : List UInt8) : String :=
  match bytes.foldl step (.between, []) with
  | (.between, done) => String.ofList done.reverse
  | (.inside .., done) => String.ofList ('�' :: done).reverse

end Utf8

end Untangle
