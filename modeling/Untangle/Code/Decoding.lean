import Untangle.ClassFile.Code
import Untangle.Code.Shape

/-!
# Reading one instruction

Bytes and pool slots become an instruction whose targets are offsets from the start of the code. A
reader keeps its position, because displacements count from the instruction's opcode and the
operands of a switch start at a multiple of four.
-/

namespace Untangle

/-- The code that is left to read, and how much was read before it. -/
structure Cursor where
  offset : Nat
  rest : List UInt8
deriving Repr, Inhabited

/-- Reads from the code at a cursor. -/
abbrev CodeReader := StateT Cursor (Except Error)

namespace CodeReader

/-- Reads one byte. -/
def u8 : CodeReader UInt8
  | ⟨n, a :: rest⟩ => .ok (a, ⟨n + 1, rest⟩)
  | _ => .error .truncatedCode

/-- Reads a number of two bytes. -/
def u16 : CodeReader UInt16
  | ⟨n, a :: b :: rest⟩ => .ok (Bytes.join16 a b, ⟨n + 2, rest⟩)
  | _ => .error .truncatedCode

/-- Reads a signed number of four bytes. -/
def i32 : CodeReader Int32
  | ⟨n, a :: b :: c :: d :: rest⟩ => .ok ((Bytes.join32 a b c d).toInt32, ⟨n + 4, rest⟩)
  | _ => .error .truncatedCode

/-- Passes over `n` bytes. -/
def skip (n : Nat) : CodeReader Unit := fun s =>
  match Bytes.cut [] n s.rest with
  | some (_, rest) => .ok ((), ⟨s.offset + n, rest⟩)
  | none => .error .truncatedCode

/-- Reads `n` values one after the other; `done` holds those already read, last first. -/
def repeated {α : Type} (read : CodeReader α) : Nat → List α → CodeReader (List α)
  | 0, done => fun s => .ok (done.reverse, s)
  | n + 1, done => fun s =>
    match read s with
    | .ok (a, s) => repeated read n (a :: done) s
    | .error e => .error e

/-- Reads a displacement of two bytes from `origin`. -/
def near (origin : Nat) : CodeReader Int := do return origin + (← u16).toInt16.toInt

/-- Reads a displacement of four bytes from `origin`. -/
def far (origin : Nat) : CodeReader Int := do return origin + (← i32).toInt

end CodeReader

/-! ### Constants that instructions name by slot -/

namespace Pool

/-- The literal in a slot, `none` for a constant that is not taken apart. -/
def literal? (p : Pool) (i : UInt16) : Except Error (Option Literal) := do
  match ← p.get i with
  | .integer v => return some (.int v)
  | .float bits => return some (.float bits)
  | .long v => return some (.long v)
  | .double bits => return some (.double bits)
  | .string _ => return some (.text (← p.string i))
  | .class _ => return some (.type (← p.className i))
  | .methodType d => return some (.methodType (← p.name d))
  | _ => return none

/-- What loading a slot pushes. -/
def loadable (p : Pool) (i : UInt16) (wide : Bool) : Except Error Literal := do
  return (← p.literal? i).getD (.pooled i wide)

/-- The method handle in a slot. -/
def handle (p : Pool) (i : UInt16) : Except Error Handle := do
  match ← p.get i with
  | .methodHandle kind reference =>
    let (member, isInterface) ← p.member reference
    return { kind, member, isInterface }
  | _ => .error (.unexpectedConstant i "MethodHandle")

/-- The static argument in a slot. -/
def bootstrapArg (p : Pool) (i : UInt16) : Except Error BootstrapArg := do
  match ← p.get i with
  | .methodHandle .. => return .handle (← p.handle i)
  | _ => return (← p.literal? i).elim (.other i) .literal

/-- The call site in a slot, linked by an entry of the bootstrap table. -/
def callSite (p : Pool) (bootstraps : List BootstrapEntry) (i : UInt16) : Except Error CallSite := do
  match ← p.get i with
  | .invokeDynamic bootstrapIndex signature =>
    let s ← p.nameAndType signature
    match bootstraps[bootstrapIndex.toNat]? with
    | none => .error (.invalidConstantIndex bootstrapIndex)
    | some entry =>
      let bootstrap ← p.handle entry.method
      let arguments ← entry.arguments.mapM p.bootstrapArg
      return { index := i, name := s.name, descriptor := s.descriptor, bootstrapIndex, bootstrap,
               arguments }
  | _ => .error (.unexpectedConstant i "InvokeDynamic")

end Pool

/-! ### Instructions -/

namespace Decoding

open CodeReader

/-- An instruction whose targets are offsets from the start of the code. -/
abbrev Decoded := Instruction Int

/-- Bytes between a switch opcode and its operands, which start at a multiple of four. -/
def padding (origin : Nat) : Nat := 3 - origin % 4

/-- Reads the operands of a switch by range. `size` is the length of the whole code, which bounds
the number of targets. -/
def tableSwitch (size origin : Nat) : CodeReader Decoded := do
  skip (padding origin)
  let otherwise ← far origin
  let low ← i32
  let high ← i32
  let count := high.toInt - low.toInt + 1
  if count < 0 || count * 4 > size then throw .truncatedCode
  let targets ← repeated (far origin) count.toNat []
  return .tableSwitch low high otherwise targets

/-- Reads the operands of a switch by keys. -/
def lookupSwitch (size origin : Nat) : CodeReader Decoded := do
  skip (padding origin)
  let otherwise ← far origin
  let count := (← i32).toInt
  if count < 0 || count * 8 > size then throw .truncatedCode
  let pair : CodeReader (Int32 × Int) := do
    let key ← i32
    return (key, ← far origin)
  let pairs ← repeated pair count.toNat []
  return .lookupSwitch otherwise pairs

/-- Reads an opcode and operands of double size. -/
def widened (origin : Nat) : CodeReader Decoded := do
  let opcode ← u8
  let slot ← u16
  match Opcode.shape? opcode with
  | some (.load kind) => return .load kind slot
  | some (.store kind) => return .store kind slot
  | some .leaveSub => return .leaveSub slot
  | some .increment => return .increment slot (← u16).toInt16
  | _ => throw (.unknownOpcode opcode (origin + 1))

/-- Reads what follows the opcode at `origin`. -/
def operands (pool : Pool) (bootstraps : List BootstrapEntry) (size origin : Nat) (opcode : UInt8) :
    Shape → CodeReader Decoded
  | .plain => return .plain opcode
  | .push value => return .push value
  | .pushByte => do return .push (.int (Int32.ofInt (← u8).toInt8.toInt))
  | .pushShort => do return .push (.int (Int32.ofInt (← u16).toInt16.toInt))
  | .pushNear => do return .push (← pool.loadable (← u8).toUInt16 false)
  | .pushFar wide => do return .push (← pool.loadable (← u16) wide)
  | .load kind => do return .load kind (← u8).toUInt16
  | .loadFrom kind slot => return .load kind slot
  | .store kind => do return .store kind (← u8).toUInt16
  | .storeTo kind slot => return .store kind slot
  | .stack op => return .stack op
  | .math kind op => return .math kind op
  | .increment => do
    let slot ← u8
    let delta ← u8
    return .increment slot.toUInt16 (Int16.ofInt delta.toInt8.toInt)
  | .branch cond => do return .branch cond (← near origin)
  | .jump false => do return .jump (← near origin)
  | .jump true => do return .jump (← far origin)
  | .callSub false => do return .callSub (← near origin)
  | .callSub true => do return .callSub (← far origin)
  | .leaveSub => do return .leaveSub (← u8).toUInt16
  | .tableSwitch => tableSwitch size origin
  | .lookupSwitch => lookupSwitch size origin
  | .leave kind => return .leave kind
  | .field op => do return .field op (← pool.member (← u16)).1
  | .invoke kind => do
    let (member, isInterface) ← pool.member (← u16)
    -- a count and a zero byte follow a call through an interface
    if kind = .interface then skip 2
    return .invoke kind member isInterface
  | .invokeDynamic => do
    let site ← pool.callSite bootstraps (← u16)
    skip 2
    return .invokeDynamic site
  | .typed op => do return .typed op (← pool.className (← u16))
  | .newArray => do return .newArray (← u8)
  | .newMultiArray => do
    let name ← pool.className (← u16)
    return .newMultiArray name (← u8)
  | .raise => return .raise
  | .wide => widened origin

/-- Reads the instruction at the cursor, in code of `size` bytes. -/
def instruction (pool : Pool) (bootstraps : List BootstrapEntry) (size : Nat) :
    CodeReader Decoded := do
  let origin := (← get).offset
  let opcode ← u8
  match Opcode.shape? opcode with
  | some shape => operands pool bootstraps size origin opcode shape
  | none => throw (.unknownOpcode opcode origin)

/-- Reads instructions to the end of the code, each with its offset; `done` holds those already
read, last first. Every instruction takes at least one byte, so the length of the code bounds the
number of steps. -/
def instructions (pool : Pool) (bootstraps : List BootstrapEntry) (size : Nat) :
    Nat → List (Nat × Decoded) → Cursor → Except Error (List (Nat × Decoded))
  | 0, done, _ => .ok done.reverse
  | steps + 1, done, s =>
    if s.rest.isEmpty then .ok done.reverse
    else
      match instruction pool bootstraps size s with
      | .ok (i, next) => instructions pool bootstraps size steps ((s.offset, i) :: done) next
      | .error e => .error e

end Decoding

end Untangle
