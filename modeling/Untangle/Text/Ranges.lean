/-!
# Ranges of characters

A property of characters is a table of ranges in order. They are many and lie close together, so a table
says in turn how many characters are outside a range and how many inside.
-/

namespace Untangle.CharClass

/-- The ranges of a table, as first and last character; `start` is where the characters begin that it counts. -/
def rangesOf (start : Nat) : List Nat → List (Nat × Nat)
  | gap :: size :: rest => (start + gap, start + gap + size - 1) :: rangesOf (start + gap + size) rest
  | _ => []

end Untangle.CharClass
