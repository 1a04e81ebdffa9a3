import Untangle.Instr
import Untangle.Opcode

/-!
# The shape of an instruction in code

What an opcode says by itself, and what has to be read after it. `Opcode.shape?` is the decoder's
table; the numbers used by the encoder stand next to it.
-/

namespace Untangle

/-- What an opcode fixes, and by its name what follows it in the code. -/
inductive Shape where
  /-- Nothing follows, and nothing more is known. -/
  | plain
  | push (value : Literal)
  /-- A signed byte follows. -/
  | pushByte
  /-- A signed number of two bytes follows. -/
  | pushShort
  /-- A pool slot of one byte follows. -/
  | pushNear
  /-- A pool slot of two bytes follows. -/
  | pushFar (wide : Bool)
  | load (kind : ValueKind)
  | loadFrom (kind : ValueKind) (slot : UInt16)
  | store (kind : ValueKind)
  | storeTo (kind : ValueKind) (slot : UInt16)
  | stack (op : StackOp)
  | math (kind : NumKind) (op : MathOp)
  | increment
  | branch (cond : Condition)
  /-- A displacement of two bytes follows, of four if `far`. -/
  | jump (far : Bool)
  | callSub (far : Bool)
  | leaveSub
  | tableSwitch
  | lookupSwitch
  | leave (kind : Option ValueKind)
  | field (op : FieldOp)
  | invoke (kind : InvokeKind)
  | invokeDynamic
  | typed (op : TypeOp)
  | newArray
  | newMultiArray
  | raise
  /-- Another opcode follows, with operands of double size. -/
  | wide
deriving DecidableEq, Repr, Inhabited

/-- The bit patterns of 0, 1 and 2. -/
def floatBits : List UInt32 := [0x00000000, 0x3f800000, 0x40000000]

/-- The bit patterns of 0 and 1. -/
def doubleBits : List UInt64 := [0x0000000000000000, 0x3ff0000000000000]

namespace Opcode

/-- The kind of value that is number `i` in the order of the opcodes. -/
def kindAt (i : Nat) : ValueKind := ValueKind.all.getD i .ref

/-- The shape of an instruction by its opcode; `none` for numbers that no instruction has. -/
def shape? (opcode : UInt8) : Option Shape :=
  let n := opcode.toNat
  if n = 0x00 then some .plain
  else if n = 0x01 then some (.push .null)
  else if n ≤ 0x08 then some (.push (.int (Int32.ofInt (n - 3))))
  else if n ≤ 0x0a then some (.push (.long (Int64.ofNat (n - 0x09))))
  else if n ≤ 0x0d then some (.push (.float (floatBits.getD (n - 0x0b) 0)))
  else if n ≤ 0x0f then some (.push (.double (doubleBits.getD (n - 0x0e) 0)))
  else if n = 0x10 then some .pushByte
  else if n = 0x11 then some .pushShort
  else if n = 0x12 then some .pushNear
  else if n ≤ 0x14 then some (.pushFar (n == 0x14))
  else if n ≤ 0x19 then some (.load (kindAt (n - 0x15)))
  else if n ≤ 0x2d then some (.loadFrom (kindAt ((n - 0x1a) / 4)) (UInt16.ofNat ((n - 0x1a) % 4)))
  else if n ≤ 0x35 then some .plain
  else if n ≤ 0x3a then some (.store (kindAt (n - 0x36)))
  else if n ≤ 0x4e then some (.storeTo (kindAt ((n - 0x3b) / 4)) (UInt16.ofNat ((n - 0x3b) % 4)))
  else if n ≤ 0x56 then some .plain
  else if n ≤ 0x5f then some (.stack (StackOp.all.getD (n - 0x57) .swap))
  else if n ≤ 0x77 then
    some (.math (NumKind.all.getD ((n - 0x60) % 4) .double) (MathOp.all.getD ((n - 0x60) / 4) .neg))
  else if n ≤ 0x83 then
    some (.math (NumKind.all.getD ((n - 0x78) % 2) .long) (MathOp.all.getD (6 + (n - 0x78) / 2) .xor))
  else if n = 0x84 then some .increment
  else if n ≤ 0x98 then some .plain
  else if n ≤ 0xa6 then some (.branch (Condition.all.getD (n - 0x99) .refNe))
  else if n = 0xa7 then some (.jump false)
  else if n = 0xa8 then some (.callSub false)
  else if n = 0xa9 then some .leaveSub
  else if n = 0xaa then some .tableSwitch
  else if n = 0xab then some .lookupSwitch
  else if n ≤ 0xb0 then some (.leave (some (kindAt (n - 0xac))))
  else if n = 0xb1 then some (.leave none)
  else if n ≤ 0xb5 then some (.field (FieldOp.all.getD (n - 0xb2) .putField))
  else if n ≤ 0xb9 then some (.invoke (InvokeKind.all.getD (n - 0xb6) .interface))
  else if n = 0xba then some .invokeDynamic
  else if n = 0xbb then some (.typed .new)
  else if n = 0xbc then some .newArray
  else if n = 0xbd then some (.typed .newArray)
  else if n = 0xbe then some .plain
  else if n = 0xbf then some .raise
  else if n = 0xc0 then some (.typed .checkCast)
  else if n = 0xc1 then some (.typed .instanceOf)
  else if n ≤ 0xc3 then some .plain
  else if n = 0xc4 then some .wide
  else if n = 0xc5 then some .newMultiArray
  else if n = 0xc6 then some (.branch .isNull)
  else if n = 0xc7 then some (.branch .nonNull)
  else if n = 0xc8 then some (.jump true)
  else if n = 0xc9 then some (.callSub true)
  else none

end Opcode

/-! ### The way back -/

namespace ValueKind

/-- The kind's number in the order of the opcodes. -/
def index : ValueKind → UInt8
  | int => 0
  | long => 1
  | float => 2
  | double => 3
  | ref => 4

end ValueKind

namespace Condition

/-- The opcode of a conditional jump. -/
def opcode : Condition → UInt8
  | isNull => Opcode.ifnull
  | nonNull => Opcode.ifnonnull
  | c => Opcode.ifeq + UInt8.ofNat (all.idxOf c)

/-- The test of a conditional jump's opcode. -/
def ofOpcode? (opcode : UInt8) : Option Condition :=
  match Opcode.shape? opcode with
  | some (.branch c) => some c
  | _ => none

end Condition

/-- The opcode of an arithmetic instruction. Only `int`s and `long`s can be shifted or combined
bitwise. -/
def mathOpcode? (kind : NumKind) (op : MathOp) : Option UInt8 :=
  let i := UInt8.ofNat (MathOp.all.idxOf op)
  if i < 6 then some (Opcode.iadd + 4 * i + kind.valueKind.index)
  else
    match kind with
    | .int | .long => some (Opcode.ishl + 2 * (i - 6) + kind.valueKind.index)
    | .float | .double => none

/-- The opcode of a stack instruction. -/
def StackOp.opcode (op : StackOp) : UInt8 := Opcode.pop + UInt8.ofNat (all.idxOf op)

/-- The opcode of a field access. -/
def FieldOp.opcode (op : FieldOp) : UInt8 := Opcode.getstatic + UInt8.ofNat (all.idxOf op)

/-- The opcode of a call. -/
def InvokeKind.opcode (k : InvokeKind) : UInt8 := Opcode.invokevirtual + UInt8.ofNat (all.idxOf k)

/-- The opcode of an instruction that takes a class. -/
def TypeOp.opcode : TypeOp → UInt8
  | .new => Opcode.new
  | .newArray => Opcode.anewarray
  | .checkCast => Opcode.checkcast
  | .instanceOf => Opcode.instanceof

end Untangle
