import Untangle.Archive.BitStream

/-!
# Huffman codes

A code is given by the length of each symbol's bits; among symbols of one length the bits count up.
So a code is decoded by counting: after each bit, the codes of that length are a range of numbers.
-/

namespace Untangle

/-- A code for the symbols 0, 1, 2 and so on. -/
structure Huffman where
  /-- How many symbols have 1, 2, … 15 bits. -/
  counts : List Nat
  /-- The symbols by length, and in order among those of one length. -/
  symbols : Array Nat
deriving Repr, Inhabited

namespace Huffman

/-- The lengths that a symbol can have. -/
def sizes : List Nat := (List.range 15).map (· + 1)

/-- Room that the codes take up out of 65536. -/
def room (counts : List Nat) : Nat := counts.foldl (fun sum c => (sum + c) * 2) 0

/-- The code with these lengths, 0 for a symbol that is not used. The codes have to take up all the
room there is, unless no symbol is used, or a single one of one bit. -/
def ofLengths (lengths : List Nat) : Option Huffman :=
  let counts := sizes.map fun n => lengths.count n
  let used := lengths.filter (· != 0)
  if room counts = 65536 ∨ used = [] ∨ used = [1] then
    let symbols := sizes.flatMap fun n => (lengths.zipIdx.filter (·.1 == n)).map Prod.snd
    some ⟨counts, symbols.toArray⟩
  else none

/-- Looks for the symbol whose bits come next. `code` holds the bits read so far, `first` the first
code of this length and `index` the number of its symbol. -/
def search (symbols : Array Nat) (code first index : Nat) :
    List Nat → BitStream → Option (Nat × BitStream)
  | [], _ => none
  | count :: counts, s =>
    match s.take 1 with
    | none => none
    | some (bit, s) =>
      let code := code + bit
      if code < first + count then (symbols[index + (code - first)]?).map (·, s)
      else search symbols (code * 2) ((first + count) * 2) (index + count) counts s

/-- Takes the next symbol. -/
def decode (h : Huffman) (s : BitStream) : Option (Nat × BitStream) := search h.symbols 0 0 0 h.counts s

end Huffman

end Untangle
