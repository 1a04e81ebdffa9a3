/-!
# Base 64

Bytes in the standard alphabet, four symbols for three bytes. The padding may be left out or be
incomplete, but there is never more of it than the last group needs, and nothing follows it. Bits of
the last symbol that belong to no byte are zero.
-/

namespace Untangle.Base64

/-- The value of a symbol. -/
def value? (c : Char) : Option Nat :=
  let n := c.toNat
  if 65 ≤ n ∧ n ≤ 90 then some (n - 65)
  else if 97 ≤ n ∧ n ≤ 122 then some (n - 71)
  else if 48 ≤ n ∧ n ≤ 57 then some (n + 4)
  else if c = '+' then some 62
  else if c = '/' then some 63
  else none

/-- The bytes of symbols in groups of four; `done` holds those already read, last first. -/
def groups (done : List UInt8) : List Nat → Option (List UInt8)
  | a :: b :: c :: d :: rest =>
    groups
      (UInt8.ofNat (c * 64 + d) :: UInt8.ofNat (b * 16 + c / 4) :: UInt8.ofNat (a * 4 + b / 16) :: done)
      rest
  | [a, b, c] =>
    if c % 4 = 0 then some (UInt8.ofNat (b * 16 + c / 4) :: UInt8.ofNat (a * 4 + b / 16) :: done).reverse
    else none
  | [a, b] => if b % 16 = 0 then some (UInt8.ofNat (a * 4 + b / 16) :: done).reverse else none
  | [_] => none
  | [] => some done.reverse

/-- The bytes of a text. -/
def decode (cs : List Char) : Option (List UInt8) := do
  let symbols := cs.takeWhile (· != '=')
  let padding := cs.dropWhile (· != '=')
  let room := (4 - symbols.length % 4) % 4
  if padding.length ≤ room ∧ padding.all (· == '=') then
    groups [] (← symbols.mapM value?)
  else none

end Untangle.Base64
