import Untangle.Instr
import Untangle.Opcode

/-!
# Instruction listings

The instructions of a method in order. Each instruction sits in a node, which keeps its number for
good: numbers count up and are never given out again, so a node can be named before and after any
edit elsewhere.

A node that was removed can still be named, and even be inserted next to. What is inserted there
starts a strand of its own, beside the one that held the node. So a listing is a set of strands, one
of which is where reading starts (`isHead`) and one where new instructions are added (`isTail`).
Editing the first node of a strand moves the head there, and editing the last node moves the tail.
As long as no removed node is inserted next to, there is one strand, which is both.
-/

namespace Untangle

/-- A numbered place that holds an instruction until it is removed. -/
structure Node where
  id : Nat
  /-- `none` once the node was removed. -/
  content : Option Instr
deriving DecidableEq, Repr, Inhabited

namespace Node

/-- Still holds its instruction. -/
def live (n : Node) : Bool := n.content.isSome

/-- The instruction; a removed node reads as one that does nothing. -/
def instr (n : Node) : Instr := n.content.getD (.plain Opcode.nop)

/-- Executes something. -/
def isReal (n : Node) : Bool := n.instr.isReal

/-- Holds a label. -/
def isLabel (n : Node) : Bool := n.instr.label?.isSome

end Node

/-- A node with its neighbours. -/
structure Place where
  /-- What stands before it, nearest first. -/
  before : List Node
  node : Node
  after : List Node
deriving Repr, Inhabited

/-- The place of the first node that satisfies a test; `before` holds what was passed, nearest
first. -/
def Place.find (test : Node → Bool) (before : List Node) : List Node → Option Place
  | [] => none
  | n :: rest => if test n then some ⟨before, n, rest⟩ else Place.find test (n :: before) rest

/-- A run of nodes in order. -/
structure Strand where
  nodes : List Node
  /-- Reading starts here. -/
  isHead : Bool
  /-- New instructions are added here. -/
  isTail : Bool
deriving DecidableEq, Repr, Inhabited

namespace Strand

def holds (s : Strand) (id : Nat) : Bool := s.nodes.any (·.id == id)

/-- Gives up being head or tail. -/
def yield (head tail : Bool) (s : Strand) : Strand :=
  { s with isHead := s.isHead && !head, isTail := s.isTail && !tail }

end Strand

/-- The instructions of a method. -/
structure Listing where
  strands : List Strand := []
  nextId : Nat := 0
  nextLabel : Label := 0
  /-- Something was inserted, removed, replaced or redirected. -/
  modified : Bool := false
deriving DecidableEq, Repr, Inhabited

namespace Listing

/-! ### Reading -/

/-- The nodes in order. -/
def nodes (l : Listing) : List Node :=
  match l.strands.find? (·.isHead) with
  | some s => s.nodes
  | none => []

/-- The instructions in order. -/
def instrs (l : Listing) : List Instr := l.nodes.map Node.instr

/-- The node numbers in order. -/
def ids (l : Listing) : List Nat := l.nodes.map Node.id

/-- One strand, which is head and tail, without removed nodes. -/
def Intact (l : Listing) : Prop :=
  (l.strands = [] ∨ ∃ ns, ns ≠ [] ∧ l.strands = [⟨ns, true, true⟩]) ∧ ∀ n ∈ l.nodes, n.live

/-- The place of the first node, in any strand, that satisfies a test. -/
def place? (l : Listing) (test : Node → Bool) : Option Place :=
  l.strands.findSome? fun s => Place.find test [] s.nodes

/-- The place of a node that was not removed. -/
def livePlace? (l : Listing) (id : Nat) : Option Place := l.place? fun n => n.id == id && n.live

/-- The instruction of a node. -/
def get? (l : Listing) (id : Nat) : Option Instr := (l.livePlace? id).bind (·.node.content)

/-- The node was not removed. -/
def contains (l : Listing) (id : Nat) : Bool := (l.get? id).isSome

/-- The first node. -/
def first? (l : Listing) : Option Nat := l.nodes.head?.map Node.id

/-- The last node, behind which new instructions are added. -/
def last? (l : Listing) : Option Nat :=
  ((l.strands.find? (·.isTail)).bind (·.nodes.getLast?)).map Node.id

/-- The node after this one. -/
def next? (l : Listing) (id : Nat) : Option Nat :=
  ((l.livePlace? id).bind (·.after.head?)).map Node.id

/-- The node before this one. -/
def prev? (l : Listing) (id : Nat) : Option Nat :=
  ((l.livePlace? id).bind (·.before.head?)).map Node.id

/-- The next node that executes something. -/
def nextReal? (l : Listing) (id : Nat) : Option Nat :=
  ((l.livePlace? id).bind (·.after.find? Node.isReal)).map Node.id

/-- The nearest node before this one that executes something. -/
def prevReal? (l : Listing) (id : Nat) : Option Nat :=
  ((l.livePlace? id).bind (·.before.find? Node.isReal)).map Node.id

/-- The first node from this one on that executes something. -/
def realFrom? (l : Listing) (id : Nat) : Option Nat :=
  ((l.livePlace? id).bind fun p => (p.node :: p.after).find? Node.isReal).map Node.id

/-- Number of nodes that were not removed. -/
def size (l : Listing) : Nat := l.strands.foldr (fun s n => s.nodes.countP Node.live + n) 0

/-- Every node was removed. -/
def isEmpty (l : Listing) : Bool := l.size == 0

/-- The place of a label. -/
def labelPlace? (l : Listing) (name : Label) : Option Place :=
  l.place? fun n => n.content == some (.label name)

/-- The node of a label. -/
def labelNode? (l : Listing) (name : Label) : Option Nat := (l.labelPlace? name).map (·.node.id)

/-- The nodes from a label on, the label's own first. -/
def fromLabel (l : Listing) (name : Label) : List Node :=
  match l.labelPlace? name with
  | some p => p.node :: p.after
  | none => []

/-- The first node from a label on that executes something. -/
def realAt? (l : Listing) (name : Label) : Option Node := (l.fromLabel name).find? Node.isReal

/-! ### Building -/

/-- The label number to give out next, once an instruction is in the listing. -/
def labelAbove (next : Label) (i : Instr) : Label :=
  match i with
  | .label name => max next (name + 1)
  | _ => next

/-- A listing of these instructions, nodes numbered from 0. -/
def ofInstrs (is : List Instr) : Listing :=
  { strands := if is.isEmpty then [] else [⟨is.zipIdx.map fun (i, id) => ⟨id, some i⟩, true, true⟩]
    nextId := is.length
    nextLabel := is.foldl labelAbove 0 }

/-- Gives out a label that stands nowhere yet. The number of the one to come next has 32 bits, so there
is none if that would have more. -/
def newLabel (l : Listing) : Except Error (Label × Listing) :=
  if l.nextLabel < 4294967295 then .ok (l.nextLabel, { l with nextLabel := l.nextLabel + 1 })
  else .error .labelOverflow

/-- Numbers a new node. -/
def alloc (l : Listing) (i : Instr) : Node × Listing :=
  (⟨l.nextId, some i⟩, { l with nextId := l.nextId + 1, nextLabel := labelAbove l.nextLabel i })

/-- Adds an instruction at the end. -/
def push (l : Listing) (i : Instr) : Nat × Listing :=
  let (n, l) := l.alloc i
  let strands :=
    if l.strands.any (·.isTail) then
      l.strands.map fun s => if s.isTail then { s with nodes := s.nodes ++ [n] } else s
    else ⟨[n], true, true⟩ :: l.strands.map (Strand.yield true true)
  (n.id, { l with strands })

/-! ### Editing -/

/-- Puts other nodes in the place of the strand that holds a node, which takes over being head or
tail if so asked. A node that stands in no strand gets one. Nothing is left of an empty strand. -/
def rewire (l : Listing) (id : Nat) (nodes : List Node) (head tail : Bool) : Listing :=
  let settle (s : Strand) : Strand :=
    if s.holds id then ⟨nodes, s.isHead || head, s.isTail || tail⟩ else s.yield head tail
  let strands :=
    if l.strands.any (·.holds id) then l.strands.map settle
    else ⟨nodes, head, tail⟩ :: l.strands.map (Strand.yield head tail)
  { l with strands := strands.filter fun s => !s.nodes.isEmpty }

/-- Where a node stands; one that was removed stands alone, unless something was inserted next to it
since. -/
def standing (l : Listing) (id : Nat) : Place := (l.place? (·.id == id)).getD ⟨[], ⟨id, none⟩, []⟩

/-- Inserts an instruction before a node. -/
def insertBefore (l : Listing) (id : Nat) (i : Instr) : Nat × Listing :=
  let p := l.standing id
  let (n, l) := l.alloc i
  let l := l.rewire id (p.before.reverse ++ n :: p.node :: p.after) p.before.isEmpty false
  (n.id, { l with modified := true })

/-- Inserts an instruction after a node. -/
def insertAfter (l : Listing) (id : Nat) (i : Instr) : Nat × Listing :=
  let p := l.standing id
  let (n, l) := l.alloc i
  let l := l.rewire id (p.before.reverse ++ p.node :: n :: p.after) false p.after.isEmpty
  (n.id, { l with modified := true })

/-- Takes a node out, whatever it holds. -/
def unlink (l : Listing) (p : Place) : Listing :=
  let l := l.rewire p.node.id (p.before.reverse ++ p.after) p.before.isEmpty p.after.isEmpty
  { l with modified := true }

/-- Removes a node. Labels stay: only pruning takes out those that nothing refers to. -/
def remove (l : Listing) (id : Nat) : Option Instr × Listing :=
  match l.livePlace? id with
  | some p => if p.node.isLabel then (none, l) else (p.node.content, l.unlink p)
  | none => (none, l)

/-- Swaps the instruction of a node. Labels are neither replaced nor brought in. -/
def replace (l : Listing) (id : Nat) (i : Instr) : Option Instr × Listing :=
  match l.livePlace? id with
  | some p =>
    if p.node.isLabel || i.label?.isSome then (none, l)
    else
      let l := l.rewire id (p.before.reverse ++ ⟨id, some i⟩ :: p.after) false false
      (p.node.content, { l with modified := true })
  | none => (none, l)

/-- The label that stands right before a node, with at most line entries between, or that the node
itself is; a new one if there is none. -/
def labelAt (l : Listing) (id : Nat) : Except Error (Label × Listing) := do
  let isLine (n : Node) : Bool := n.instr matches .line _
  let near := (l.livePlace? id).bind fun p =>
    ((p.before.dropWhile isLine).head?.bind (·.instr.label?)).or p.node.instr.label?
  match near with
  | some name => return (name, l)
  | none =>
    let (name, l) ← l.newLabel
    return (name, (l.insertBefore id (.label name)).2)

/-- Renames jump and switch targets everywhere, and counts the references that changed. -/
def redirect (l : Listing) (f : Label → Label) : Nat × Listing :=
  let moved (n : Node) (sum : Nat) : Nat := n.instr.targets.countP (fun t => f t != t) + sum
  let changed := l.strands.foldr (fun s sum => s.nodes.foldr moved sum) 0
  if changed = 0 then (0, l)
  else
    let rename (n : Node) : Node := { n with content := n.content.map (Instruction.mapTargets f) }
    (changed,
      { l with strands := l.strands.map fun s => { s with nodes := s.nodes.map rename }
               modified := true })

/-- Puts other nodes in the place of the strand that is read. If its last node changes, the tail
moves there. -/
def withNodes (l : Listing) (nodes : List Node) : Listing :=
  let tail := (nodes.getLast?.map Node.id) != (l.nodes.getLast?.map Node.id)
  let settle (s : Strand) : Strand :=
    if s.isHead then ⟨nodes, true, s.isTail || tail⟩ else s.yield false tail
  { l with strands := (l.strands.map settle).filter fun s => !s.nodes.isEmpty }

/-- Keeps the nodes that satisfy a test, and counts the others as edits. -/
def keep (l : Listing) (test : Node → Bool) : Nat × Listing :=
  match l.nodes.countP (fun n => !test n) with
  | 0 => (0, l)
  | gone => (gone, { l.withNodes (l.nodes.filter test) with modified := true })

end Listing

end Untangle
