import Untangle.Bytes
import Untangle.Code.Shape
import Untangle.Instr.Text
import Untangle.Pool

/-!
# Writing one instruction

An instruction becomes a chunk of code. Most chunks are bytes at once; jumps and switches have to
wait until it is known where everything stands. Literals, members and classes are interned as they
come.
-/

namespace Untangle

/-- A piece of code that is laid out as a whole. -/
inductive Chunk where
  | mark (name : Label)
  | line (number : UInt16)
  | fixed (bytes : List UInt8)
  | branch (cond : Condition) (target : Label)
  | jump (target : Label)
  | callSub (target : Label)
  | tableSwitch (low high : Int32) (otherwise : Label) (targets : List Label)
  | lookupSwitch (otherwise : Label) (pairs : List (Int32 × Label))
deriving DecidableEq, Repr, Inhabited

namespace Encoding

open Bytes Opcode

/-- A load of a pool slot, short if the slot's number fits a byte. -/
def loadSlot (i : UInt16) : List UInt8 :=
  if i ≤ 0xff then [ldc, i.toUInt8] else ldcW :: be16 i

/-- The bytes that push a literal. Small numbers have instructions of their own. -/
def literal : Literal → Interning (List UInt8)
  | .int v =>
    if -1 ≤ v ∧ v ≤ 5 then return [iconst0 + v.toInt8.toUInt8]
    else if -0x80 ≤ v ∧ v ≤ 0x7f then return [bipush, v.toInt8.toUInt8]
    else if -0x8000 ≤ v ∧ v ≤ 0x7fff then return sipush :: be16 v.toInt16.toUInt16
    else return loadSlot (← Pool.intern (.integer v))
  | .long v =>
    if 0 ≤ v ∧ v ≤ 1 then return [lconst0 + v.toInt8.toUInt8]
    else return ldc2W :: be16 (← Pool.intern (.long v))
  | .float bits =>
    match floatBits.idxOf? bits with
    | some i => return [fconst0 + UInt8.ofNat i]
    | none => return loadSlot (← Pool.intern (.float bits))
  | .double bits =>
    match doubleBits.idxOf? bits with
    | some i => return [dconst0 + UInt8.ofNat i]
    | none => return ldc2W :: be16 (← Pool.intern (.double bits))
  | .text s => return loadSlot (← Pool.internString s)
  | .null => return [aconstNull]
  | .type name => return loadSlot (← Pool.internClass name)
  | .methodType descriptor => return loadSlot (← Pool.internMethodType descriptor)
  | .pooled i true => return ldc2W :: be16 i
  | .pooled i false => return loadSlot i

/-- A load or a store: the first four slots have opcodes of their own, and slots past 255 need the
wide form. -/
def localAccess (base shortBase : UInt8) (kind : ValueKind) (slot : UInt16) : List UInt8 :=
  if slot ≤ 3 then [shortBase + kind.index * 4 + slot.toUInt8]
  else if slot ≤ 0xff then [base + kind.index, slot.toUInt8]
  else wide :: (base + kind.index) :: be16 slot

/-- The chunk of an instruction. -/
def chunk (i : Instr) : Interning Chunk :=
  match i with
  | .label name => return .mark name
  | .line number => return .line number
  | .jump target => return .jump target
  | .callSub target => return .callSub target
  | .branch cond target => return .branch cond target
  | .tableSwitch low high otherwise targets => return .tableSwitch low high otherwise targets
  -- the machine wants the keys in order
  | .lookupSwitch otherwise pairs =>
    return .lookupSwitch otherwise (pairs.mergeSort fun a b => a.1 ≤ b.1)
  | .push value => return .fixed (← literal value)
  | .load kind slot => return .fixed (localAccess iload iload0 kind slot)
  | .store kind slot => return .fixed (localAccess istore istore0 kind slot)
  | .increment slot delta =>
    if slot ≤ 0xff ∧ -0x80 ≤ delta ∧ delta ≤ 0x7f then
      return .fixed [iinc, slot.toUInt8, delta.toInt8.toUInt8]
    else return .fixed (wide :: iinc :: (be16 slot ++ be16 delta.toUInt16))
  | .leaveSub slot =>
    return .fixed (if slot ≤ 0xff then [ret, slot.toUInt8] else wide :: ret :: be16 slot)
  | .field op member => return .fixed (op.opcode :: be16 (← Pool.internField member))
  | .invoke kind member isInterface => do
    let index ← Pool.internMethod member isInterface
    if kind = .interface then
      let descriptor ← MethodDescriptor.parse member.descriptor
      let count := UInt8.ofNat (descriptor.argSlots + 1)
      return .fixed (kind.opcode :: (be16 index ++ [count, 0]))
    else return .fixed (kind.opcode :: be16 index)
  | .invokeDynamic site => return .fixed (invokedynamic :: (be16 site.index ++ [0, 0]))
  | .typed op name => return .fixed (op.opcode :: be16 (← Pool.internClass name))
  | .newArray element => return .fixed [newarray, element]
  | .newMultiArray name dims => return .fixed (multianewarray :: (be16 (← Pool.internClass name) ++ [dims]))
  | .stack op => return .fixed [op.opcode]
  | .math kind op =>
    match mathOpcode? kind op with
    | some opcode => return .fixed [opcode]
    | none => throw (.unencodable i.shown)
  | .leave (some kind) => return .fixed [ireturn + kind.index]
  | .leave none => return .fixed [vreturn]
  | .raise => return .fixed [athrow]
  | .plain opcode => return .fixed [opcode]

/-- The chunks of instructions in order; `done` holds those already made, last first. -/
def chunks (done : List Chunk) : List Instr → Interning (List Chunk)
  | [] => fun p => .ok done.reverse p
  | i :: rest => fun p =>
    match chunk i p with
    | .ok c p => chunks (c :: done) rest p
    | .error e p => .error e p

end Encoding

end Untangle
