/-!
# Similar words

How much two words are alike, to tell a word that was meant to be another one: the share of
characters that they have in common at about the same place, and more for words that start alike.
-/

namespace Untangle

namespace Similarity

/-- Pairs of equal characters found so far. -/
structure Tally where
  /-- The characters of the second word that have no partner yet, by place. -/
  free : List (Nat × Char)
  pairs : Nat := 0
  /-- Pairs whose partner stands before that of the pair before. -/
  crossed : Nat := 0
  /-- Where the last partner stands. -/
  last : Nat := 0
deriving Repr, Inhabited

/-- Looks for a partner of the character `c` at place `i`, at most `range` places away. -/
def Tally.add (range : Nat) (t : Tally) : Char × Nat → Tally
  | (c, i) =>
    match t.free.find? fun (j, d) => d == c && i ≤ j + range && j ≤ i + range with
    | none => t
    | some (j, _) =>
      { free := t.free.filter fun f => f.1 != j
        pairs := t.pairs + 1
        crossed := t.crossed + (if j < t.last then 1 else 0)
        last := j }

/-- The likeness of two words as a fraction of whole numbers: the mean of the shares of paired
characters in both words, and of pairs that are not crossed. -/
def fraction (a b : List Char) : Nat × Nat :=
  if a.isEmpty && b.isEmpty then (1, 1)
  else if a.isEmpty || b.isEmpty then (0, 1)
  else if a.length = 1 ∧ b.length = 1 then (if a = b then 1 else 0, 1)
  else
    let range := max a.length b.length / 2 - 1
    let t := a.zipIdx.foldl (Tally.add range) { free := b.zipIdx.map fun (c, j) => (j, c) }
    if t.pairs = 0 then (0, 1)
    else
      (t.pairs * t.pairs * (a.length + b.length) + (t.pairs - t.crossed) * a.length * b.length,
        3 * a.length * b.length * t.pairs)

/-- Length of the common start. -/
def commonStart : List Char → List Char → Nat
  | a :: as, b :: bs => if a = b then commonStart as bs + 1 else 0
  | _, _ => 0

/-- More than eight tenths alike, where each character of the common start takes a tenth of what is
missing. -/
def isClose (a b : String) : Bool :=
  let (n, d) := fraction a.toList b.toList
  let start := commonStart a.toList b.toList
  10 * (n : Int) + start * ((d : Int) - n) > 8 * d

end Similarity

end Untangle
