import Untangle.Code.Body

/-!
# Positions and jump sources

Where things stand in a body, counted from its first node, and which nodes jump where.
-/

namespace Untangle

/-- A protected range by positions. -/
structure PlacedRange where
  start : Nat
  stop : Nat
  handler : Nat
  catchType : Option String
deriving DecidableEq, Repr, Inhabited

/-- Look-ups over a body, good until the body changes. -/
structure FlowIndex where
  order : List Node
  /-- The labels in order, with their positions. -/
  labels : List (Label × Nat)
  /-- Every pair of a jump's target and the jump's node, in order. -/
  jumps : List (Label × Nat)
  ranges : List PlacedRange
deriving Repr, Inhabited

namespace FlowIndex

/-- The positions of the labels in a run of nodes. -/
def labelPositions (nodes : List Node) : List (Label × Nat) :=
  nodes.zipIdx.filterMap fun (n, p) => n.instr.label?.map (·, p)

/-- The index of a body. -/
def of (b : Body) : FlowIndex :=
  let labels := labelPositions b.nodes
  { order := b.nodes
    labels
    jumps := b.nodes.flatMap fun n => n.instr.targets.map (·, n.id)
    ranges := b.ranges.filterMap fun r => do
      return ⟨← labels.lookup r.start, ← labels.lookup r.stop, ← labels.lookup r.handler, r.catchType⟩ }

/-- The position of a label. -/
def labelPosition? (x : FlowIndex) (l : Label) : Option Nat := x.labels.lookup l

/-- The position of a node. -/
def position? (x : FlowIndex) (id : Nat) : Option Nat := x.order.findIdx? (·.id == id)

/-- The nodes that jump to a label, in order, one for each time they name it. -/
def sources (x : FlowIndex) (l : Label) : List Nat := (x.jumps.filter (·.1 == l)).map Prod.snd

/-- Some node jumps to the label. -/
def isJumpTarget (x : FlowIndex) (l : Label) : Bool := x.jumps.any (·.1 == l)

/-- The position lies inside some protected range. -/
def isProtected (x : FlowIndex) (p : Nat) : Bool := x.ranges.any fun r => r.start ≤ p && p < r.stop

end FlowIndex

end Untangle
