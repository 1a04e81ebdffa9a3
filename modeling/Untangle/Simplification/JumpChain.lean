import Std.Data.TreeMap.Basic
import Untangle.Code.Body

/-!
# Chains of jumps

A label whose first instruction is a jump forwards to that jump's target. Whoever refers to such a
label can as well refer to the end of the chain. Chains that close into a loop of jumps have no end
and are left alone.
-/

namespace Untangle

namespace JumpChain

/-- The label that another one forwards to. A jump to the label itself forwards nowhere. -/
def forwardsTo? (l : Listing) (name : Label) : Option Label :=
  match (l.realAt? name).bind Node.content with
  | some (.jump next) => if next = name then none else some next
  | _ => none

/-- Follows a chain to its end in at most so many steps; `none` if it takes more. -/
def follow (next : Label → Option Label) : Nat → Label → Option Label
  | 0, _ => none
  | steps + 1, name =>
    match next name with
    | none => some name
    | some target => follow next steps target

/-- Every label on a chain but the last stands in the listing, so a chain that takes more steps than
there are labels goes in circles. -/
def longest (l : Listing) : Nat := l.strands.foldr (fun s n => s.nodes.countP Node.isLabel + n) 0 + 2

/-- Where each of some labels forwards to. -/
def table (l : Listing) (labels : List Label) : Std.TreeMap Label (Option Label) :=
  Std.TreeMap.ofList (labels.map fun name => (name, forwardsTo? l name))

/-- Where a label forwards to, looked up if it is in the table. -/
def lookUp (l : Listing) (known : Std.TreeMap Label (Option Label)) (name : Label) : Option Label :=
  match known.get? name with
  | some target => target
  | none => forwardsTo? l name

end JumpChain

namespace Body

open JumpChain in
/-- The end of the chain of every label that something refers to; a label whose chain goes in circles
stands for itself. -/
def chainEnds (b : Body) : Std.TreeMap Label Label :=
  let labels := b.referencedSet.toList
  let known := table b.code labels
  let steps := longest b.code
  Std.TreeMap.ofList (labels.map fun l => (l, (follow (lookUp b.code known) steps l).getD l))

/-- Sends every reference along its chain, until nothing changes any more. -/
def collapseRounds : Nat → Nat → Body → Nat × Body
  | 0, changes, b => (changes, b)
  | rounds + 1, changes, b =>
    let ends := b.chainEnds
    match b.redirect (fun l => ends.getD l l) true with
    | (0, b) => (changes, b)
    | (changed, b) => collapseRounds rounds (changes + changed) b

/-- Makes jumps, switches and handlers refer to the ends of their chains. -/
def collapseJumpChains (b : Body) : Nat × Body := collapseRounds (b.referenced.length + 2) 0 b

end Body

end Untangle
