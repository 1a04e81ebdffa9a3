/-!
# AES, deciphering

The block cipher with keys of 16, 24 or 32 bytes, as far as it is needed to read: one block is
deciphered at a time, and padding is taken off at the end. Bytes are added and multiplied as
polynomials over the two-element field, modulo x⁸ + x⁴ + x³ + x + 1.
-/

namespace Untangle.Aes

/-- Multiplies by x. -/
def double (a : UInt8) : UInt8 := if a &&& 0x80 = 0 then a <<< 1 else (a <<< 1) ^^^ 0x1b

/-- The sum of `a · xⁱ` over the bits `i` of `b`, of which `bits` are left. -/
def mulBits (a b : UInt8) : Nat → UInt8
  | 0 => 0
  | bits + 1 => (if b &&& 1 = 0 then 0 else a) ^^^ mulBits (double a) (b >>> 1) bits

/-- The product of two bytes. -/
def mul (a b : UInt8) : UInt8 := mulBits a b 8

/-- The power of a byte. -/
def pow (a : UInt8) : Nat → UInt8
  | 0 => 1
  | n + 1 => mul a (pow a n)

/-- Turns a byte left by `n` bits. -/
def turn (a n : UInt8) : UInt8 := a <<< n ||| a >>> (8 - n)

/-- The substitution of one byte: its inverse, 0 for 0, under an affine map. -/
def substitute (a : UInt8) : UInt8 :=
  let b := pow a 254
  b ^^^ turn b 1 ^^^ turn b 2 ^^^ turn b 3 ^^^ turn b 4 ^^^ 0x63

/-- All bytes. -/
def allBytes : List UInt8 := (List.range 256).map UInt8.ofNat

/-- The substitution of every byte. -/
def table : Array UInt8 := (allBytes.map substitute).toArray

/-- The way back of every byte. -/
def inverseTable : Array UInt8 :=
  allBytes.foldl (fun inverse a => inverse.setIfInBounds (table.getD a.toNat 0).toNat a)
    (Array.replicate 256 0)

/-- Substitutes a byte. -/
def sub (a : UInt8) : UInt8 := table.getD a.toNat 0

/-- Undoes a substitution. -/
def unsub (a : UInt8) : UInt8 := inverseTable.getD a.toNat 0

/-- Adds two runs of bytes place by place. -/
def add (a b : List UInt8) : List UInt8 := a.zipWith (· ^^^ ·) b

/-! ### Round keys -/

/-- The word that follows `words`, which holds the key's words and those derived so far, last first;
`size` is the number of words of the key. -/
def nextWord (size : Nat) (words : List (List UInt8)) : List UInt8 :=
  let i := words.length
  let last := words.headD []
  let mixed :=
    if i % size = 0 then
      add ((last.drop 1 ++ last.take 1).map sub) [pow 2 (i / size - 1), 0, 0, 0]
    else if size > 6 ∧ i % size = 4 then last.map sub
    else last
  add mixed (words.getD (size - 1) [])

/-- Derives `n` more words. -/
def expand (size : Nat) : Nat → List (List UInt8) → List (List UInt8)
  | 0, words => words
  | n + 1, words => expand size n (nextWord size words :: words)

/-- Cuts bytes into pieces of `size`. -/
def pieces (size : Nat) (bytes : List UInt8) : List (List UInt8) :=
  (List.range (bytes.length / size)).map fun i => (bytes.drop (size * i)).take size

/-- The round keys of a key, the one used last for enciphering first. -/
def roundKeys (key : List UInt8) : List (List UInt8) :=
  let size := key.length / 4
  let words := expand size (4 * (size + 7) - size) (pieces 4 key).reverse
  (pieces 16 words.reverse.flatten).reverse

/-! ### Rounds -/

/-- Moves row `r` of the four by four block, which is kept column by column, right by `r` places. -/
def shiftRowsBack (block : List UInt8) : List UInt8 :=
  let bytes := block.toArray
  (List.range 16).map fun i => bytes.getD ((i + 16 - 4 * (i % 4)) % 16) 0

/-- Mixes the four bytes of a column, the other way round. -/
def mixColumnBack (column : List UInt8) : List UInt8 :=
  match column with
  | [a, b, c, d] =>
    [mul a 14 ^^^ mul b 11 ^^^ mul c 13 ^^^ mul d 9, mul a 9 ^^^ mul b 14 ^^^ mul c 11 ^^^ mul d 13,
     mul a 13 ^^^ mul b 9 ^^^ mul c 14 ^^^ mul d 11, mul a 11 ^^^ mul b 13 ^^^ mul c 9 ^^^ mul d 14]
  | _ => column

/-- Mixes every column, the other way round. -/
def mixColumnsBack (block : List UInt8) : List UInt8 := (pieces 4 block).flatMap mixColumnBack

/-- Undoes the rounds for the keys that are left. -/
def unround (block : List UInt8) : List (List UInt8) → List UInt8
  | [] => block
  | [first] => add ((shiftRowsBack block).map unsub) first
  | key :: rest => unround (mixColumnsBack (add ((shiftRowsBack block).map unsub) key)) rest

/-- Deciphers one block. -/
def decipherBlock (keys : List (List UInt8)) (block : List UInt8) : List UInt8 :=
  match keys with
  | [] => block
  | last :: rest => unround (add block last) rest

/-- Takes off the padding: the last byte says how many bytes are padding, and all of them say so. -/
def unpad (bytes : List UInt8) : Option (List UInt8) :=
  match bytes.getLast? with
  | none => none
  | some last =>
    let n := last.toNat
    let rest := bytes.length - n
    if n = 0 ∨ n > 16 then none
    else if (bytes.drop rest).all (· == last) then some (bytes.take rest)
    else none

/-- Deciphers whole blocks one by one and takes off the padding. -/
def decipher (key data : List UInt8) : Option (List UInt8) :=
  if data.isEmpty || data.length % 16 != 0 then none
  else if key.length = 16 ∨ key.length = 24 ∨ key.length = 32 then
    let keys := roundKeys key
    unpad ((pieces 16 data).flatMap (decipherBlock keys))
  else none

end Untangle.Aes
