import Untangle.Code.Body
import Untangle.Code.Decoding

/-!
# From code to a body

The bytes of a method's code become a listing with labels. Every offset that a jump, a protected
range or a variable names has to be the start of an instruction; for ranges and variables the end of
the code will do as well. Labels are numbered in the order in which offsets are first named: by
jumps, then by ranges, then by variables.

Line and variable entries are only remarks on the code: entries that do not line up with an
instruction are left out, but a table that is cut short is an error.
-/

namespace Untangle

namespace Disassembly

/-- The offsets at which instructions start, and the end of the code. -/
abbrev Boundaries := Std.TreeSet Nat

/-- The label of each offset that has one. -/
abbrev Labels := Std.TreeMap Nat Label

/-- Numbers offsets in the order in which they are first named. -/
def number (offsets : List Nat) : Labels := offsets.foldl (fun m o => m.insertIfNew o m.size) ∅

/-- The label of an offset. -/
def labelOf (m : Labels) (offset : Nat) : Label := m.getD offset 0

/-- A protected range by offsets, with the class it catches. -/
structure OffsetRange where
  start : Nat
  stop : Nat
  handler : Nat
  catchType : Option String
deriving DecidableEq, Repr, Inhabited

/-- A variable by offsets. -/
structure OffsetVariable where
  name : String
  descriptor : String
  start : Nat
  stop : Nat
  index : UInt16
deriving DecidableEq, Repr, Inhabited

/-- What the tables of the code say besides ranges: source lines by offset, and variables. -/
structure Remarks where
  lines : Std.TreeMap Nat (List UInt16) := ∅
  locals : List OffsetVariable := []

/-- Checks the targets of the instructions: each is the start of one. -/
def checkTargets (bounds : Boundaries) (size origin : Nat) : List Int → Except Error Unit
  | [] => .ok ()
  | target :: rest =>
    if 0 ≤ target ∧ target < size ∧ bounds.contains target.toNat then
      checkTargets bounds size origin rest
    else .error (.invalidBranchTarget origin target)

/-- Reads a protected range. -/
def range (pool : Pool) (bounds : Boundaries) (r : ProtectedRange) : Except Error OffsetRange := do
  for offset in [r.start, r.stop, r.handler] do
    unless bounds.contains offset.toNat do
      throw (.invalidBranchTarget r.handler.toNat offset.toNat)
  let catchType ← if r.catchType = 0 then pure none else some <$> pool.className r.catchType
  return ⟨r.start.toNat, r.stop.toNat, r.handler.toNat, catchType⟩

/-- Reads a variable entry, if it lines up with instructions and its names can be read. -/
def offsetVariable? (pool : Pool) (bounds : Boundaries) (v : VariableEntry) : Option OffsetVariable :=
  let start := v.start.toNat
  let stop := start + v.length.toNat
  if bounds.contains start && bounds.contains stop then
    match pool.name v.name, pool.name v.descriptor with
    | .ok name, .ok descriptor => some ⟨name, descriptor, start, stop, v.index⟩
    | _, _ => none
  else none

/-- Adds what one attribute of the code says. -/
def remark (pool : Pool) (bounds : Boundaries) (done : Remarks) (a : Attribute) :
    Except Error Remarks := do
  match ← pool.name a.name with
  | "LineNumberTable" =>
    let entries := (← LineEntry.parseAll a.data).filter fun e => bounds.contains e.start.toNat
    let add (m : Std.TreeMap Nat (List UInt16)) (e : LineEntry) :=
      m.insert e.start.toNat (m.getD e.start.toNat [] ++ [e.line])
    return { done with lines := entries.foldl add done.lines }
  | "LocalVariableTable" =>
    let locals := (← VariableEntry.parseAll a.data).filterMap (offsetVariable? pool bounds)
    return { done with locals := done.locals ++ locals }
  | _ => return done

/-- The entries for one instruction: its label, the lines that start there, and itself. -/
def entries (labels : Labels) (lines : Std.TreeMap Nat (List UInt16))
    (decoded : Nat × Decoding.Decoded) : List Instr :=
  let (offset, i) := decoded
  (labels[offset]?.map Instruction.label).toList ++ (lines.getD offset []).map Instruction.line ++
    [i.mapTargets fun target => labelOf labels target.toNat]

/-- Puts labels in the place of offsets. -/
def body (code : CodeAttribute) (decoded : List (Nat × Decoding.Decoded)) (ranges : List OffsetRange)
    (remarks : Remarks) : Body :=
  let size := code.code.length
  let labels := number
    (decoded.flatMap (fun (_, i) => i.targetsAsWritten.map Int.toNat) ++
      ranges.flatMap (fun r => [r.start, r.stop, r.handler]) ++
      remarks.locals.flatMap fun v => [v.start, v.stop])
  let instrs := decoded.flatMap (entries labels remarks.lines) ++
    (labels[size]?.map Instruction.label).toList
  { maxStack := code.maxStack
    maxLocals := code.maxLocals
    code := Listing.ofInstrs instrs
    ranges := ranges.map fun r =>
      ⟨labelOf labels r.start, labelOf labels r.stop, labelOf labels r.handler, r.catchType⟩
    locals := remarks.locals.map fun v =>
      ⟨v.name, v.descriptor, labelOf labels v.start, labelOf labels v.stop, v.index⟩ }

end Disassembly

open Disassembly in
/-- Decodes the code of a method. -/
def disassemble (code : CodeAttribute) (pool : Pool) (bootstraps : List BootstrapEntry) :
    Except Error Body := do
  let size := code.code.length
  let decoded ← Decoding.instructions pool bootstraps size size [] ⟨0, code.code⟩
  let bounds := Std.TreeSet.ofList (size :: decoded.map Prod.fst)
  for (offset, i) in decoded do
    checkTargets bounds size offset i.targetsAsWritten
  let ranges ← code.ranges.mapM (range pool bounds)
  let remarks ← code.attributes.foldlM (remark pool bounds) {}
  return body code decoded ranges remarks

end Untangle
