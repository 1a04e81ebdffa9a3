import Untangle.Code.Encoding

/-!
# Laying out code

Where each chunk of code stands. A jump is short if its displacement fits sixteen bits. Starting with
short jumps only, those that do not fit are made wide and everything is laid out anew, until all fit.
Code only ever grows, so this ends after at most one layout more than there are jumps.
-/

namespace Untangle

namespace Chunk

/-- Bytes between a switch opcode and its operands. -/
def switchPadding (offset : Nat) : Nat := (4 - (offset + 1) % 4) % 4

/-- Bytes the chunk takes at an offset. A wide conditional jump is the opposite test, jumping over a
wide jump. -/
def size (offset : Nat) (wide : Bool) : Chunk → Nat
  | mark _ | line _ => 0
  | fixed bytes => bytes.length
  | branch _ _ => if wide then 8 else 3
  | jump _ | callSub _ => if wide then 5 else 3
  | tableSwitch _ _ _ targets => 1 + switchPadding offset + 12 + targets.length * 4
  | lookupSwitch _ pairs => 1 + switchPadding offset + 8 + pairs.length * 8

/-- The target of a jump that can be made wide. -/
def target? : Chunk → Option Label
  | branch _ target | jump target | callSub target => some target
  | _ => none

end Chunk

/-- A chunk, whether it is made wide, and where it stands. -/
structure Placed where
  chunk : Chunk
  wide : Bool
  offset : Nat
deriving DecidableEq, Repr, Inhabited

/-- Chunks with their offsets. -/
structure Layout where
  chunks : List Placed
  size : Nat
deriving DecidableEq, Repr, Inhabited

namespace Layout

/-- Places chunks one after the other from `offset` on; `done` holds those already placed, last
first. -/
def place (offset : Nat) (done : List Placed) : List (Chunk × Bool) → Layout
  | [] => ⟨done.reverse, offset⟩
  | (c, wide) :: rest => place (offset + c.size offset wide) (⟨c, wide, offset⟩ :: done) rest

/-- The offset of each label. -/
def marks (l : Layout) : Std.TreeMap Label Nat :=
  Std.TreeMap.ofList (l.chunks.filterMap fun p =>
    match p.chunk with
    | .mark name => some (name, p.offset)
    | _ => none)

/-- The offset of a label. -/
def resolve (marks : Std.TreeMap Label Nat) (name : Label) : Except Error Nat :=
  match marks[name]? with
  | some offset => .ok offset
  | none => .error (.unboundLabel name)

/-- A displacement that two bytes cannot hold. -/
def isFar (displacement : Int) : Bool := displacement < -0x8000 || 0x7fff < displacement

/-- Makes the jumps wide that do not fit; says whether there were any. `done` holds the chunks
already looked at, last first. -/
def widen (marks : Std.TreeMap Label Nat) (changed : Bool) (done : List (Chunk × Bool)) :
    List Placed → Except Error (Bool × List (Chunk × Bool))
  | [] => .ok (changed, done.reverse)
  | p :: rest =>
    match p.chunk.target? with
    | some target =>
      if p.wide then widen marks changed ((p.chunk, true) :: done) rest
      else
        match resolve marks target with
        | .ok offset =>
          let far := isFar ((offset : Int) - p.offset)
          widen marks (changed || far) ((p.chunk, far) :: done) rest
        | .error e => .error e
    | none => widen marks changed ((p.chunk, p.wide) :: done) rest

/-- Lays out chunks until every short jump fits. -/
def settle : Nat → List (Chunk × Bool) → Except Error Layout
  | 0, chunks => .ok (place 0 [] chunks)
  | rounds + 1, chunks => do
    let l := place 0 [] chunks
    let (changed, chunks) ← widen l.marks false [] l.chunks
    if changed then settle rounds chunks else return l

/-- The layout of chunks. Each round but the last makes a jump wide. -/
def of (chunks : List Chunk) : Except Error Layout :=
  settle (chunks.countP (·.target?.isSome) + 1) (chunks.map (·, false))

end Layout

end Untangle
