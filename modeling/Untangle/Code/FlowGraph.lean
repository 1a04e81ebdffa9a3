import Untangle.Code.FlowIndex

/-!
# Flow graphs

A body cut into blocks that are entered at the front only, and the ways control goes from block to
block: falling through, jumping, and being thrown to a handler. Labels and lines stay with the
instruction they precede. The graph is a view of one state of a body.
-/

namespace Untangle

/-- A run of nodes that is entered at the front only. -/
structure Block where
  nodes : List Node
  /-- The position of its first node. -/
  start : Nat
deriving Repr, Inhabited

namespace Block

/-- The last instruction of the block that executes something. -/
def lastReal? (b : Block) : Option Instr :=
  (b.nodes.reverse.find? fun n => n.live && n.isReal).map Node.instr

/-- Whether control can leave the block at its end. A block without instructions only falls through. -/
def fallsThrough (b : Block) : Bool := b.lastReal?.all Instruction.fallsThrough

/-- The labels that the block's last instruction jumps to. -/
def targets (b : Block) : List Label := b.lastReal?.elim [] Instruction.targets

/-- The labels in the block. -/
def labels (b : Block) : List Label := b.nodes.filterMap (·.instr.label?)

/-- Some instruction of the block stands between two positions. -/
def meets (b : Block) (start stop : Nat) : Bool :=
  (b.nodes.zipIdx b.start).any fun (n, p) => start ≤ p && p < stop && n.live && n.isReal

end Block

inductive EdgeKind where
  | fallThrough | jump | exception
deriving DecidableEq, Repr, Inhabited

/-- A way from one block to another, by their numbers. -/
structure Edge where
  source : Nat
  target : Nat
  kind : EdgeKind
deriving DecidableEq, Repr, Inhabited

/-- A body as blocks and the ways between them. -/
structure FlowGraph where
  blocks : List Block
  edges : List Edge
  /-- The blocks that some protected range names as its handler, with repetitions. -/
  handlers : List Nat
deriving Repr, Inhabited

namespace FlowGraph

/-- Cuts nodes into blocks: after a jump or an instruction that does not fall through, and before a
label if the block has an instruction. `current` is the block being filled, last node first, and
`done` the blocks before it, last first. -/
def split (done : List (List Node)) (current : List Node) (hasReal ended : Bool) :
    List Node → List (List Node)
  | [] => (if current.isEmpty then done else current.reverse :: done).reverse
  | n :: rest =>
    let ends := n.isReal && (n.instr.isJump || !n.instr.fallsThrough)
    if ended || (n.isLabel && hasReal) then split (current.reverse :: done) [n] n.isReal ends rest
    else split done (n :: current) (hasReal || n.isReal) ends rest

/-- Gives each run of nodes the position of its first one. -/
def placed (start : Nat) (done : List Block) : List (List Node) → List Block
  | [] => done.reverse
  | ns :: rest => placed (start + ns.length) (⟨ns, start⟩ :: done) rest

/-- The blocks of a run of nodes. -/
def blocksOf (nodes : List Node) : List Block := placed 0 [] (split [] [] false false nodes)

/-- The numbers of the blocks that labels stand in. -/
def labelBlocks (blocks : List Block) : List (Label × Nat) :=
  blocks.zipIdx.flatMap fun (b, i) => b.labels.map (·, i)

/-- The ways out of a block at its end. -/
def exits (count : Nat) (labels : List (Label × Nat)) (b : Block) (i : Nat) : List Edge :=
  (if b.fallsThrough && i + 1 < count then [⟨i, i + 1, .fallThrough⟩] else []) ++
    b.targets.filterMap fun t => (labels.lookup t).map fun j => ⟨i, j, .jump⟩

/-- The protected ranges whose labels all stand in the code: first and last position, and the
handler's block. -/
def placedRanges (b : Body) (labels : List (Label × Nat)) : List (Nat × Nat × Nat) :=
  let positions := FlowIndex.labelPositions b.nodes
  b.ranges.filterMap fun r => do
    return (← positions.lookup r.start, ← positions.lookup r.stop, ← labels.lookup r.handler)

/-- The flow graph of a body. -/
def of (b : Body) : FlowGraph :=
  let blocks := blocksOf b.nodes
  let labels := labelBlocks blocks
  let ranges := placedRanges b labels
  let numbered := blocks.zipIdx
  let thrown := ranges.flatMap fun (start, stop, handler) =>
    numbered.filterMap fun (b, i) => if b.meets start stop then some ⟨i, handler, .exception⟩ else none
  { blocks
    edges := numbered.flatMap (fun (b, i) => exits blocks.length labels b i) ++ thrown
    handlers := ranges.map fun (_, _, handler) => handler }

/-- The blocks that control can reach from those in `frontier`, besides those already `seen`. One
step looks at one entry of the frontier. -/
def reach (g : FlowGraph) : Nat → List Nat → List Nat → List Nat
  | 0, _, seen => seen
  | _, [], seen => seen
  | steps + 1, i :: frontier, seen =>
    if seen.contains i then reach g steps frontier seen
    else
      let next := (g.edges.filter (·.source == i)).map Edge.target
      reach g steps (next ++ frontier) (i :: seen)

/-- The blocks that control can reach from the first one. Every edge enters the frontier at most
once. -/
def reachableBlocks (g : FlowGraph) : List Nat :=
  if g.blocks.isEmpty then [] else g.reach (g.edges.length + 1) [0] []

/-- The nodes in blocks that control can reach from the first one. -/
def reachable (g : FlowGraph) : List Node :=
  let seen := g.reachableBlocks
  g.blocks.zipIdx.flatMap fun (b, i) => if seen.contains i then b.nodes else []

end FlowGraph

/-! ### Dead code -/

namespace Body

/-- Marks each node with whether its block can be reached. -/
def reachability (b : Body) : List (Node × Bool) :=
  let g := FlowGraph.of b
  let seen := g.reachableBlocks
  g.blocks.zipIdx.flatMap fun (b, i) => b.nodes.map (·, seen.contains i)

/-- Takes out what control cannot reach, then the ranges that protect nothing any more, then the
labels that nothing refers to. Counts the instructions, lines and ranges taken out. -/
def removeDeadCode (b : Body) : Nat × Body :=
  let marked := b.reachability
  let dead := marked.filter fun (n, reached) => !n.isLabel && !reached
  let gone := (dead.filter (·.1.live)).map (·.1.id)
  let code :=
    if gone.isEmpty then b.code
    else
      let kept := marked.filter fun (n, reached) => n.isLabel || reached || !n.live
      { b.code.withNodes (kept.map Prod.fst) with modified := true }
  let b := { b with code }
  let ranges := b.ranges.filter fun r => !(b.realBetween r.start r.stop).isEmpty
  let dropped := b.ranges.length - ranges.length
  let b := { b with ranges, dirty := b.dirty || dropped != 0 }
  (dead.length + dropped, b.pruneLabels.2)

end Body

end Untangle
