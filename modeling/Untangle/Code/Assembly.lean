import Untangle.ClassFile.Code
import Untangle.Code.Body
import Untangle.Code.Layout

/-!
# From a body to code

The way back from a listing to the bytes of a method's code. Line and variable tables are made anew
from the listing; a protected range that turns out empty is left out.
-/

namespace Untangle

namespace Assembly

open Bytes

/-- A displacement of two bytes. -/
def near (displacement : Int) : List UInt8 := be16 (Int16.ofInt displacement).toUInt16

/-- A displacement of four bytes. -/
def far (displacement : Int) : List UInt8 := be32 (Int32.ofInt displacement).toUInt32

/-- A jump from `offset` to `target`. -/
def jump (short long : UInt8) (wide : Bool) (offset target : Nat) : List UInt8 :=
  let displacement : Int := (target : Int) - offset
  if wide then long :: far displacement else short :: near displacement

/-- The bytes of a placed chunk, given where the labels are. -/
def bytes (resolve : Label → Except Error Nat) (p : Placed) : Except Error (List UInt8) := do
  let away (name : Label) : Except Error (List UInt8) := do
    return far (((← resolve name) : Int) - p.offset)
  match p.chunk with
  | .mark _ | .line _ => return []
  | .fixed data => return data
  | .branch cond target =>
    let displacement : Int := ((← resolve target) : Int) - p.offset
    if p.wide then return cond.invert.opcode :: (near 8 ++ Opcode.gotoW :: far (displacement - 3))
    else return cond.opcode :: near displacement
  | .jump target => return jump Opcode.goto Opcode.gotoW p.wide p.offset (← resolve target)
  | .callSub target => return jump Opcode.jsr Opcode.jsrW p.wide p.offset (← resolve target)
  | .tableSwitch low high otherwise targets =>
    let head := Opcode.tableswitch :: List.replicate (Chunk.switchPadding p.offset) 0
    let first ← away otherwise
    let rest ← targets.mapM away
    return head ++ (first ++ (be32 low.toUInt32 ++ (be32 high.toUInt32 ++ rest.flatten)))
  | .lookupSwitch otherwise pairs =>
    let head := Opcode.lookupswitch :: List.replicate (Chunk.switchPadding p.offset) 0
    let first ← away otherwise
    let rest ← pairs.mapM fun (key, target) => do return be32 key.toUInt32 ++ (← away target)
    return head ++ (first ++ (count32 pairs.length ++ rest.flatten))

/-- Adds a source line; of two lines that start at the same offset the later one counts. -/
def addLine (done : List LineEntry) (e : LineEntry) : List LineEntry :=
  match done with
  | last :: before => if last.start = e.start then e :: before else e :: done
  | [] => [e]

/-- The line table of a layout. A line at the end of the code has no code and is left out. -/
def lines (l : Layout) : List LineEntry :=
  let add (done : List LineEntry) (p : Placed) : List LineEntry :=
    match p.chunk with
    | .line number => if p.offset < l.size then addLine done ⟨UInt16.ofNat p.offset, number⟩ else done
    | _ => done
  (l.chunks.foldl add []).reverse

/-- A protected range by offsets, `none` if it turns out empty. -/
def range (resolve : Label → Except Error Nat) (r : Range) : Interning (Option ProtectedRange) := do
  let start ← resolve r.start
  let stop ← resolve r.stop
  if start ≥ stop then return none
  let handler ← resolve r.handler
  let catchType ← match r.catchType with
    | some name => Pool.internClass name
    | none => pure 0
  return some ⟨UInt16.ofNat start, UInt16.ofNat stop, UInt16.ofNat handler, catchType⟩

/-- A variable by offsets, `none` if its labels are missing or out of order. -/
def placedVariable (marks : Std.TreeMap Label Nat) (v : Variable) : Interning (Option VariableEntry) := do
  match marks[v.start]?, marks[v.stop]? with
  | some start, some stop =>
    if start ≤ stop then
      let name ← Pool.internName v.name
      let descriptor ← Pool.internName v.descriptor
      return some ⟨UInt16.ofNat start, UInt16.ofNat (stop - start), name, descriptor, v.index⟩
    else return none
  | _, _ => return none

/-- A table as an attribute, if it has entries. -/
def table {α : Type} (name : String) (data : List α → List UInt8) (es : List α) :
    Interning (List Attribute) := do
  if es.isEmpty then return []
  return [⟨← Pool.internName name, data es⟩]

end Assembly

open Assembly in
/-- Encodes a body, interning what constants it needs. -/
def assemble (b : Body) : Interning CodeAttribute := do
  let chunks ← Encoding.chunks [] b.code.instrs
  let layout ← Layout.of chunks
  if layout.size > 65535 then throw .codeTooLarge
  let marks := layout.marks
  let resolve := Layout.resolve marks
  let code ← Interning.lift (layout.chunks.mapM (bytes resolve))
  let ranges ← b.ranges.mapM (range resolve)
  let locals ← b.locals.mapM (placedVariable marks)
  let lineTable ← table "LineNumberTable" LineEntry.bytesAll (lines layout)
  let variableTable ← table "LocalVariableTable" VariableEntry.bytesAll (locals.filterMap id)
  return { maxStack := b.maxStack, maxLocals := b.maxLocals, code := code.flatten,
           ranges := ranges.filterMap id, attributes := lineTable ++ variableTable }

/-- Encodes a body into a pool and gives the pool back, also on failure. -/
def assembleInto (b : Body) (pool : Pool) : Except Error CodeAttribute × Pool :=
  match assemble b pool with
  | .ok code pool => (.ok code, pool)
  | .error e pool => (.error e, pool)

end Untangle
