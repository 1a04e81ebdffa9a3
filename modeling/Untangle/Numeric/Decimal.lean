import Untangle.Numeric.Binary

/-!
# Shortest decimal text

The decimal text of a floating-point value: the fewest digits that read back as the same value, and
of those the nearest to it. `shortest` finds the digits in exact arithmetic, one grid of decimals
after another; `text` decides how they are laid out.
-/

namespace Untangle.Decimal

/-- The reals that read back as one value, all over the same denominator: the value itself and half
the way to its two neighbours. -/
structure Span where
  low : Nat
  value : Nat
  high : Nat
  den : Nat
  /-- Whether the two ends belong to the span. -/
  closed : Bool
deriving Repr

/-- The span of `mantissa · 2 ^ exponent`. Below a power of two the neighbour is half as far. -/
def span (f : BinaryFormat) (mantissa : Nat) (exponent : Int) : Span :=
  let down := if mantissa == 1 <<< f.fractionBits then 1 else 2
  let scale (n : Nat) : Nat := if exponent - 2 ≥ 0 then n <<< (exponent - 2).toNat else n
  { low := scale (4 * mantissa - down)
    value := scale (4 * mantissa)
    high := scale (4 * mantissa + 2)
    den := if exponent - 2 ≥ 0 then 1 else 1 <<< (2 - exponent).toNat
    closed := mantissa % 2 == 0 }

/-- Whether `n / d` lies in the span. -/
def Span.holds (s : Span) (n d : Nat) : Bool :=
  if s.closed then s.low * d ≤ n * s.den && n * s.den ≤ s.high * d
  else s.low * d < n * s.den && n * s.den < s.high * d

/-- The power `k` with `10 ^ (k - 1) ≤ num / den < 10 ^ k`, searched from a guess below it. -/
def magnitude (num den : Nat) : Nat → Int → Int
  | 0, k => k
  | steps + 1, k =>
    let below := if k ≥ 0 then num < den * Nat.pow 10 k.toNat else num * Nat.pow 10 (-k).toNat < den
    if below then k else magnitude num den steps (k + 1)

/-- Tries `count` digits, then more: the multiples of `10 ^ (k - count)` next to the value below and
above. On a tie the upper one is taken. -/
def search (s : Span) (k : Int) : Nat → Nat → Nat × Int
  | 0, count => (s.value / s.den, k - count)
  | steps + 1, count =>
    let grid := k - count
    let num := if grid ≥ 0 then s.value else s.value * Nat.pow 10 (-grid).toNat
    let den := if grid ≥ 0 then s.den * Nat.pow 10 grid.toNat else s.den
    let below := num / den
    let rest := num % den
    let fits (n : Nat) : Bool :=
      if grid ≥ 0 then s.holds (n * Nat.pow 10 grid.toNat) 1 else s.holds n (Nat.pow 10 (-grid).toNat)
    match fits below, fits (below + 1) with
    | true, true => if 2 * rest ≥ den then (below + 1, grid) else (below, grid)
    | true, false => (below, grid)
    | false, true => (below + 1, grid)
    | false, false => search s k steps (count + 1)

/-- Digits `d` and a power `k` with value `0.d₁d₂… · 10 ^ k`, the fewest that read back. -/
def shortest (f : BinaryFormat) (mantissa : Nat) (exponent : Int) : List Char × Int :=
  let s := span f mantissa exponent
  let guess := ((Nat.log2 s.value : Int) - Nat.log2 s.den - 1) * 30103 / 100000 - 1
  let k := magnitude s.value s.den 8 guess
  let (n, grid) := search s k 20 1
  let digits := Nat.toDigits 10 n
  -- trailing zeros are no digits: they only say where the point is
  let kept := (digits.reverse.dropWhile (· == '0')).reverse
  (kept, grid + digits.length)

/-- Digits with a point among or beside them, at least one on each side of it. -/
def positional (digits : List Char) (k : Int) : List Char :=
  if k ≤ 0 then '0' :: '.' :: (List.replicate (-k).toNat '0' ++ digits)
  else
    let whole := k.toNat
    if digits.length ≤ whole then digits ++ List.replicate (whole - digits.length) '0' ++ ['.', '0']
    else digits.take whole ++ '.' :: digits.drop whole

/-- One digit, the others behind a point, and a power of ten. -/
def scientific (digits : List Char) (k : Int) : List Char :=
  match digits with
  | [] => []
  | [d] => d :: 'e' :: (toString (k - 1)).toList
  | d :: rest => d :: '.' :: (rest ++ 'e' :: (toString (k - 1)).toList)

/-- The text of a bit pattern: positional from `0.0001` up to below `10 ^ 16`, with a power of ten
outside of that. -/
def text (f : BinaryFormat) (bits : Nat) : String :=
  match f.decode bits with
  | .nan => "NaN"
  | .infinite negative => if negative then "-inf" else "inf"
  | .finite negative 0 _ => if negative then "-0.0" else "0.0"
  | .finite negative mantissa exponent =>
    let (digits, k) := shortest f mantissa exponent
    let shown := if -3 ≤ k ∧ k ≤ 16 then positional digits k else scientific digits k
    String.ofList (if negative then '-' :: shown else shown)

end Untangle.Decimal
