/-!
# Binary floating point

The two floating-point formats of the machine, with arithmetic defined on their bit patterns. A
pattern is read into an exact value `± mantissa · 2 ^ exponent`; sums, products, quotients and
remainders are computed exactly and rounded once, to the nearest representable value and on a tie
to the one with an even last bit.

An operation on a NaN gives back that NaN, the left one first, with its quiet bit set. An invalid
operation (`0 / 0`, `∞ - ∞`, a remainder by zero) gives the quiet NaN with the sign bit set and no
other payload.
-/

namespace Untangle

/-- A binary interchange format: a sign bit, an exponent field and a fraction field. -/
structure BinaryFormat where
  exponentBits : Nat
  fractionBits : Nat
deriving DecidableEq, Repr

namespace BinaryFormat

/-- Single precision, 32 bits. -/
def single : BinaryFormat := ⟨8, 23⟩

/-- Double precision, 64 bits. -/
def double : BinaryFormat := ⟨11, 52⟩

/-- The exponent field of infinities and NaNs. -/
def maxField (f : BinaryFormat) : Nat := (1 <<< f.exponentBits) - 1

/-- The exponent of the smallest positive value. -/
def minExponent (f : BinaryFormat) : Int := 2 - (1 <<< (f.exponentBits - 1) : Nat) - f.fractionBits

/-- The sign bit alone. -/
def signBit (f : BinaryFormat) : Nat := 1 <<< (f.exponentBits + f.fractionBits)

/-- An infinity. -/
def infinity (f : BinaryFormat) (negative : Bool) : Nat :=
  (if negative then f.signBit else 0) + (f.maxField <<< f.fractionBits)

/-- What an invalid operation gives. -/
def invalid (f : BinaryFormat) : Nat := f.infinity true + (1 <<< (f.fractionBits - 1))

end BinaryFormat

/-- What a bit pattern stands for. -/
inductive BinaryValue where
  | nan
  | infinite (negative : Bool)
  /-- `mantissa · 2 ^ exponent`, with its sign. -/
  | finite (negative : Bool) (mantissa : Nat) (exponent : Int)
deriving DecidableEq, Repr

namespace BinaryFormat

/-- Reads a bit pattern. -/
def decode (f : BinaryFormat) (bits : Nat) : BinaryValue :=
  let negative := bits / f.signBit % 2 == 1
  let field := (bits >>> f.fractionBits) % (1 <<< f.exponentBits)
  let fraction := bits % (1 <<< f.fractionBits)
  if field == f.maxField then if fraction == 0 then .infinite negative else .nan
  else if field == 0 then .finite negative fraction f.minExponent
  else .finite negative (fraction + (1 <<< f.fractionBits)) (f.minExponent + (field - 1))

/-- Whether the pattern is a NaN. -/
def isNaN (f : BinaryFormat) (bits : Nat) : Bool := f.decode bits == .nan

/-- Rounds `num / den` to the nearest whole number, a tie to the even one. -/
def roundEven (num den : Nat) : Nat :=
  let q := num / den
  let twice := 2 * (num % den)
  if twice > den || (twice == den && q % 2 == 1) then q + 1 else q

/-- The exponent of the last bit that a value `num / den` keeps in this format. -/
def lastBit (f : BinaryFormat) (num den : Nat) : Int :=
  let guess : Int := (Nat.log2 num : Int) - Nat.log2 den
  -- `num / den` lies between `2 ^ (guess - 1)` and `2 ^ (guess + 1)`
  let reached := if guess ≥ 0 then den <<< guess.toNat ≤ num else den ≤ num <<< (-guess).toNat
  max ((if reached then guess else guess - 1) - f.fractionBits) f.minExponent

/-- The pattern of the value nearest to `± num / den`. -/
def encode (f : BinaryFormat) (negative : Bool) (num den : Nat) : Nat :=
  let sign := if negative then f.signBit else 0
  if num == 0 then sign
  else
    let e := f.lastBit num den
    let m := if e ≥ 0 then roundEven num (den <<< e.toNat) else roundEven (num <<< (-e).toNat) den
    -- a mantissa that rounds up to the next power of two carries into the exponent field
    let pattern :=
      if m < 1 <<< f.fractionBits then m
      else (((e - f.minExponent).toNat + 1) <<< f.fractionBits) + (m - (1 <<< f.fractionBits))
    if pattern ≥ f.maxField <<< f.fractionBits then f.infinity negative else sign + pattern

/-- The pattern nearest to `± mantissa · 2 ^ exponent`. -/
def encodeScaled (f : BinaryFormat) (negative : Bool) (mantissa : Nat) (exponent : Int) : Nat :=
  if exponent ≥ 0 then f.encode negative (mantissa <<< exponent.toNat) 1
  else f.encode negative mantissa (1 <<< (-exponent).toNat)

/-- A NaN with its quiet bit set. -/
def quiet (f : BinaryFormat) (bits : Nat) : Nat := bits ||| (1 <<< (f.fractionBits - 1))

/-- Runs an operation on two patterns, NaN operands first. -/
def binary (f : BinaryFormat) (op : BinaryValue → BinaryValue → Nat) (a b : Nat) : Nat :=
  if f.isNaN a then f.quiet a else if f.isNaN b then f.quiet b else op (f.decode a) (f.decode b)

/-- A sign and a magnitude as an integer. -/
def signed (negative : Bool) (n : Nat) : Int := if negative then -(n : Int) else n

/-- The sum. A zero sum of two values is negative only if both are. -/
def addValues (f : BinaryFormat) : BinaryValue → BinaryValue → Nat
  | .infinite s, .infinite t => if s == t then f.infinity s else f.invalid
  | .infinite s, _ => f.infinity s
  | _, .infinite t => f.infinity t
  | .finite s m e, .finite t n k =>
    let low := min e k
    let sum := signed s (m <<< (e - low).toNat) + signed t (n <<< (k - low).toNat)
    if sum == 0 then f.encode (s && t) 0 1 else f.encodeScaled (sum < 0) sum.natAbs low
  | _, _ => f.invalid

/-- Turns a value around. -/
def negate (f : BinaryFormat) (bits : Nat) : Nat :=
  if bits / f.signBit % 2 == 1 then bits - f.signBit else bits + f.signBit

/-- Turns a value around, before it is encoded. -/
def negated : BinaryValue → BinaryValue
  | .finite s m e => .finite (!s) m e
  | .infinite s => .infinite (!s)
  | .nan => .nan

/-- The product. -/
def mulValues (f : BinaryFormat) : BinaryValue → BinaryValue → Nat
  | .infinite s, .infinite t => f.infinity (s != t)
  | .infinite s, .finite t n _ => if n == 0 then f.invalid else f.infinity (s != t)
  | .finite s m _, .infinite t => if m == 0 then f.invalid else f.infinity (s != t)
  | .finite s m e, .finite t n k => f.encodeScaled (s != t) (m * n) (e + k)
  | _, _ => f.invalid

/-- The quotient. -/
def divValues (f : BinaryFormat) : BinaryValue → BinaryValue → Nat
  | .infinite _, .infinite _ => f.invalid
  | .infinite s, .finite t _ _ => f.infinity (s != t)
  | .finite s _ _, .infinite t => f.encode (s != t) 0 1
  | .finite s m e, .finite t n k =>
    if n == 0 then if m == 0 then f.invalid else f.infinity (s != t)
    else if e ≥ k then f.encode (s != t) (m <<< (e - k).toNat) n
    else f.encode (s != t) m (n <<< (k - e).toNat)
  | _, _ => f.invalid

/-- The remainder of the quotient truncated toward zero; it has the sign of the dividend. -/
def remValues (f : BinaryFormat) : BinaryValue → BinaryValue → Nat
  | .finite s m e, .infinite _ => f.encodeScaled s m e
  | .finite s m e, .finite _ n k =>
    if n == 0 then f.invalid
    else
      let low := min e k
      f.encodeScaled s ((m <<< (e - low).toNat) % (n <<< (k - low).toNat)) low
  | _, _ => f.invalid

/-- `a + b`. -/
def add (f : BinaryFormat) (a b : Nat) : Nat := f.binary f.addValues a b

/-- `a - b`. -/
def sub (f : BinaryFormat) (a b : Nat) : Nat :=
  f.binary (fun x y => f.addValues x (negated y)) a b

/-- `a * b`. -/
def mul (f : BinaryFormat) (a b : Nat) : Nat := f.binary f.mulValues a b

/-- `a / b`. -/
def div (f : BinaryFormat) (a b : Nat) : Nat := f.binary f.divValues a b

/-- `a % b`. -/
def rem (f : BinaryFormat) (a b : Nat) : Nat := f.binary f.remValues a b

end BinaryFormat

end Untangle
