import Std.Data.TreeMap.Basic
import Untangle.Code.Editing

/-!
# Listings as linked cells

How a listing is kept: every node has a cell in an arena, with its instruction and the numbers of the nodes before and
behind it. A cell is never taken out of the arena; one whose node was removed has no links and holds an instruction
that does nothing. The first and the last node, the number of nodes and the nodes of labels are kept up on the side.

The number of a node is the place of its cell, cut to 32 bits.
-/

namespace Untangle

/-- What can be asked of a listing. -/
@[ext]
structure View where
  /-- The nodes in order, with their instructions. -/
  pairs : List (Nat × Instr)
  size : Nat
  isEmpty : Bool
  first : Option Nat
  last : Option Nat
  get : Nat → Option Instr
  contains : Nat → Bool
  label : Label → Option Nat
  next : Nat → Option Nat
  prev : Nat → Option Nat
  nextReal : Nat → Option Nat
  prevReal : Nat → Option Nat
  realFrom : Nat → Option Nat

/-- What is found in the strands of a listing. -/
def Listing.view (l : Listing) : View where
  pairs := l.nodes.map fun n => (n.id, n.instr)
  size := l.size
  isEmpty := l.isEmpty
  first := l.first?
  last := l.last?
  get := l.get?
  contains := l.contains
  label := l.labelNode?
  next := l.next?
  prev := l.prev?
  nextReal := l.nextReal?
  prevReal := l.prevReal?
  realFrom := l.realFrom?

/-- Where a node is kept. -/
structure Cell where
  instr : Instr
  prev : Option Nat := none
  next : Option Nat := none
  /-- The node was not removed. -/
  live : Bool := true
deriving DecidableEq, Repr, Inhabited

/-- What is left of a cell once its node was removed. -/
def Cell.removed : Cell := { instr := .plain Opcode.nop, live := false }

/-- The instructions of a method, in cells. -/
structure Arena where
  cells : Array Cell := #[]
  head : Option Nat := none
  tail : Option Nat := none
  /-- Number of nodes that were not removed. -/
  size : Nat := 0
  /-- The node of every label. -/
  labels : Std.TreeMap Label Nat := {}
  nextLabel : Label := 0
  /-- Something was inserted, removed, replaced or redirected. -/
  modified : Bool := false

namespace Arena

/-! ### Reading -/

/-- The cell of a node that was not removed. -/
def cell? (a : Arena) (id : Nat) : Option Cell := a.cells[id]?.filter Cell.live

def get? (a : Arena) (id : Nat) : Option Instr := (a.cell? id).map Cell.instr

def next? (a : Arena) (id : Nat) : Option Nat := (a.cell? id).bind Cell.next

def prev? (a : Arena) (id : Nat) : Option Nat := (a.cell? id).bind Cell.prev

/-- The nodes that links lead to from a first one, in so many steps. -/
def follow (a : Arena) (link : Cell → Option Nat) : Nat → Option Nat → List (Nat × Instr)
  | steps + 1, some id =>
    match a.cells[id]? with
    | some c => (id, c.instr) :: a.follow link steps (link c)
    | none => []
  | _, _ => []

/-- All nodes that links lead to: none is met twice, so there are no more steps than cells. -/
def walk (a : Arena) (link : Cell → Option Nat) (start : Option Nat) : List (Nat × Instr) :=
  a.follow link a.cells.size start

/-- The nodes in order. -/
def pairs (a : Arena) : List (Nat × Instr) := a.walk Cell.next a.head

/-- The next node that executes something. -/
def nextReal? (a : Arena) (id : Nat) : Option Nat :=
  ((a.walk Cell.next (a.next? id)).find? (·.2.isReal)).map Prod.fst

/-- The nearest node before this one that executes something. -/
def prevReal? (a : Arena) (id : Nat) : Option Nat :=
  ((a.walk Cell.prev (a.prev? id)).find? (·.2.isReal)).map Prod.fst

/-- The first node from this one on that executes something. -/
def realFrom? (a : Arena) (id : Nat) : Option Nat := do
  if (← a.get? id).isReal then some id else a.nextReal? id

/-- What is found in the cells. -/
def view (a : Arena) : View where
  pairs := a.pairs
  size := a.size
  isEmpty := a.size == 0
  first := a.head
  last := a.tail
  get := a.get?
  contains := fun id => (a.cell? id).isSome
  label := fun name => a.labels[name]?
  next := a.next?
  prev := a.prev?
  nextReal := a.nextReal?
  prevReal := a.prevReal?
  realFrom := a.realFrom?

/-! ### Editing -/

/-- Changes a cell. -/
def update (a : Arena) (id : Nat) (f : Cell → Cell) : Arena := { a with cells := a.cells.modify id f }

/-- Makes two nodes neighbours. What has none before it becomes the head, and what has none behind it the tail. -/
def join (a : Arena) (prev next : Option Nat) : Arena :=
  let a := match prev with
    | some id => a.update id ({ · with next })
    | none => { a with head := next }
  match next with
  | some id => a.update id ({ · with prev })
  | none => { a with tail := prev }

/-- Gives out a label that stands nowhere yet. -/
def newLabel (a : Arena) : Except Error (Label × Arena) :=
  if a.nextLabel < 4294967295 then .ok (a.nextLabel, { a with nextLabel := a.nextLabel + 1 })
  else .error .labelOverflow

/-- Notes the node of a label, if the instruction is one. -/
def register (a : Arena) (i : Instr) (id : Nat) : Except Error Arena :=
  match i.label? with
  | none => .ok a
  | some name =>
    let nextLabel := max a.nextLabel (name + 1)
    if a.labels.contains name then .error (.labelTwice name)
    else if nextLabel ≤ 4294967295 then .ok { a with labels := a.labels.insert name id, nextLabel }
    else .error .labelOverflow

/-- Gives an instruction a cell, which nothing is linked to. -/
def alloc (a : Arena) (i : Instr) : Except Error (Nat × Arena) := do
  let id := a.cells.size % 4294967296
  let a ← a.register i id
  return (id, { a with cells := a.cells.push { instr := i }, size := a.size + 1 })

/-- Puts an instruction between two neighbours. -/
def insert (a : Arena) (prev next : Option Nat) (i : Instr) : Except Error (Nat × Arena) := do
  let (id, a) ← a.alloc i
  return (id, (a.join prev (some id)).join (some id) next)

/-- Adds an instruction at the end. -/
def push (a : Arena) (i : Instr) : Except Error (Nat × Arena) := a.insert a.tail none i

/-- Adds a new label at the end. -/
def pushLabel (a : Arena) : Except Error (Label × Arena) := do
  let (name, a) ← a.newLabel
  let (_, a) ← a.push (.label name)
  return (name, a)

/-- Inserts an instruction before a node. -/
def insertBefore (a : Arena) (id : Nat) (i : Instr) : Except Error (Nat × Arena) :=
  { a with modified := true }.insert (a.cells[id]?.bind Cell.prev) (some id) i

/-- Inserts an instruction after a node. -/
def insertAfter (a : Arena) (id : Nat) (i : Instr) : Except Error (Nat × Arena) :=
  { a with modified := true }.insert (some id) (a.cells[id]?.bind Cell.next) i

/-- Takes a node out, whatever it holds. -/
def unlink (a : Arena) (id : Nat) : Option Instr × Arena :=
  match a.cell? id with
  | none => (none, a)
  | some c =>
    let a := (a.join c.prev c.next).update id fun _ => Cell.removed
    let labels := c.instr.label?.elim a.labels a.labels.erase
    (some c.instr, { a with labels, size := a.size - 1, modified := true })

/-- Removes a node that is no label. -/
def remove (a : Arena) (id : Nat) : Option Instr × Arena :=
  if (a.get? id).any (·.label?.isSome) then (none, a) else a.unlink id

/-- Swaps the instruction of a node. Labels are neither replaced nor brought in. -/
def replace (a : Arena) (id : Nat) (i : Instr) : Option Instr × Arena :=
  match a.get? id with
  | some old =>
    if old.label?.isSome || i.label?.isSome then (none, a)
    else (some old, { a.update id ({ · with instr := i }) with modified := true })
  | none => (none, a)

/-- Renames jump and switch targets everywhere, and counts the references that changed. -/
def redirect (a : Arena) (f : Label → Label) : Nat × Arena :=
  let targets := (a.cells.toList.filter Cell.live).flatMap (·.instr.targets)
  let changed := targets.countP fun t => f t != t
  if changed = 0 then (0, a)
  else
    let rename (c : Cell) : Cell := if c.live then { c with instr := c.instr.mapTargets f } else c
    (changed, { a with cells := a.cells.map rename, modified := true })

end Arena

/-- A body whose instructions are in cells. -/
structure ArenaBody where
  code : Arena := {}
  ranges : List Range := []
  locals : List Variable := []
  /-- A range was redirected. -/
  dirty : Bool := false

namespace ArenaBody

/-- The labels that some instruction, range or variable refers to. -/
def referencedSet (b : ArenaBody) : Std.TreeSet Label :=
  .ofList (b.code.pairs.flatMap (·.2.targets) ++ b.ranges.flatMap (fun r => [r.start, r.stop, r.handler]) ++
    b.locals.flatMap fun v => [v.start, v.stop])

/-- Renames the targets of jumps and switches and, if asked, handlers; counts what changed. -/
def redirect (b : ArenaBody) (f : Label → Label) (handlers : Bool) : Nat × ArenaBody :=
  let (inCode, code) := b.code.redirect f
  let b := { b with code }
  if handlers then
    let changed := inCode + b.ranges.countP fun r => f r.handler != r.handler
    if changed = 0 then (0, b)
    else
      (changed,
        { b with ranges := b.ranges.map fun r => { r with handler := f r.handler }, dirty := true })
  else (inCode, b)

/-- Takes out every label that nothing refers to, one after the other, and counts them. -/
def pruneLabels (b : ArenaBody) : Nat × ArenaBody :=
  let referenced := b.referencedSet
  let gone := b.code.pairs.filter fun x => !x.2.label?.all referenced.contains
  (gone.length, { b with code := gone.foldl (fun code x => (code.unlink x.1).2) b.code })

/-- Carries out an edit. -/
def edit (b : ArenaBody) : Edit → Except Error (Edit.Answer × ArenaBody)
  | .push i => do
    let (id, code) ← b.code.push i
    return (.node id, { b with code })
  | .pushLabel => do
    let (name, code) ← b.code.pushLabel
    return (.label name, { b with code })
  | .newLabel => do
    let (name, code) ← b.code.newLabel
    return (.label name, { b with code })
  | .insertBefore id i => do
    let (id, code) ← b.code.insertBefore id i
    return (.node id, { b with code })
  | .insertAfter id i => do
    let (id, code) ← b.code.insertAfter id i
    return (.node id, { b with code })
  | .remove id => let (old, code) := b.code.remove id; .ok (.instr old, { b with code })
  | .replace id i => let (old, code) := b.code.replace id i; .ok (.instr old, { b with code })
  | .redirect f handlers => let (n, b) := b.redirect f handlers; .ok (.count n, b)
  | .prune => let (n, b) := b.pruneLabels; .ok (.count n, b)
  | .tables ranges locals => .ok (.done, { b with ranges, locals })

/-- Carries out edits in order, with the answers to all of them. -/
def editAll : ArenaBody → List Edit → Except Error (List Edit.Answer × ArenaBody) := Edit.runAll edit

end ArenaBody

end Untangle
