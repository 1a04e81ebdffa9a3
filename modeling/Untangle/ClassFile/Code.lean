import Untangle.ClassFile

/-!
# The attributes of code

What a class file says about one method's code: the code itself with its protected ranges, and the
tables of source lines and local variables; and the table of bootstrap methods, which belongs to the
class.
-/

namespace Untangle

open Bytes

/-- Bytes `start` up to `stop` of the code are protected by the handler at `handler`. -/
structure ProtectedRange where
  start : UInt16
  stop : UInt16
  handler : UInt16
  /-- The slot of the class caught, 0 for everything. -/
  catchType : UInt16
deriving DecidableEq, Repr, Inhabited

namespace ProtectedRange

def read : Reader ProtectedRange := do
  let start ← u16
  let stop ← u16
  let handler ← u16
  let catchType ← u16
  return { start, stop, handler, catchType }

def bytes (r : ProtectedRange) : List UInt8 :=
  be16 r.start ++ (be16 r.stop ++ (be16 r.handler ++ be16 r.catchType))

end ProtectedRange

/-- The code of a method. -/
structure CodeAttribute where
  maxStack : UInt16
  maxLocals : UInt16
  code : List UInt8
  ranges : List ProtectedRange
  attributes : List Attribute
deriving DecidableEq, Repr, Inhabited

namespace CodeAttribute

/-- Reads a code attribute whose data is `size` bytes long. A declared code length above that is
refused before any of the code is read. -/
def read (size : Nat) : Reader CodeAttribute := do
  let maxStack ← u16
  let maxLocals ← u16
  let length ← u32
  if length.toNat > size then throw (.truncated "Code attribute")
  let code ← take length.toNat
  let ranges ← counted ProtectedRange.read
  let attributes ← Attribute.readAll
  return { maxStack, maxLocals, code, ranges, attributes }

/-- Reads the data of a code attribute. -/
def parse (data : List UInt8) : Except Error CodeAttribute := Bytes.parse (read data.length) data

/-- The data of the attribute. -/
def bytes (c : CodeAttribute) : List UInt8 :=
  be16 c.maxStack ++ (be16 c.maxLocals ++ (count32 c.code.length ++ (c.code ++
    (count16 c.ranges.length ++ (c.ranges.flatMap ProtectedRange.bytes ++
      Attribute.bytesAll c.attributes)))))

end CodeAttribute

/-- The code at `start` comes from source line `line`. -/
structure LineEntry where
  start : UInt16
  line : UInt16
deriving DecidableEq, Repr, Inhabited

namespace LineEntry

def read : Reader LineEntry := do
  let start ← u16
  let line ← u16
  return { start, line }

def bytes (e : LineEntry) : List UInt8 := be16 e.start ++ be16 e.line

/-- Reads the data of a line table. -/
def parseAll (data : List UInt8) : Except Error (List LineEntry) := Bytes.parse (counted read) data

/-- The data of a line table. -/
def bytesAll (es : List LineEntry) : List UInt8 := count16 es.length ++ es.flatMap bytes

end LineEntry

/-- A named local variable lives in slot `index` for `length` bytes of code from `start`. -/
structure VariableEntry where
  start : UInt16
  length : UInt16
  name : UInt16
  descriptor : UInt16
  index : UInt16
deriving DecidableEq, Repr, Inhabited

namespace VariableEntry

def read : Reader VariableEntry := do
  let start ← u16
  let length ← u16
  let name ← u16
  let descriptor ← u16
  let index ← u16
  return { start, length, name, descriptor, index }

def bytes (e : VariableEntry) : List UInt8 :=
  be16 e.start ++ (be16 e.length ++ (be16 e.name ++ (be16 e.descriptor ++ be16 e.index)))

/-- Reads the data of a variable table. -/
def parseAll (data : List UInt8) : Except Error (List VariableEntry) :=
  Bytes.parse (counted read) data

/-- The data of a variable table. -/
def bytesAll (es : List VariableEntry) : List UInt8 := count16 es.length ++ es.flatMap bytes

end VariableEntry

/-- A routine that links call sites, by the slot of its method handle, and its static arguments. -/
structure BootstrapEntry where
  method : UInt16
  arguments : List UInt16
deriving DecidableEq, Repr, Inhabited

namespace BootstrapEntry

def read : Reader BootstrapEntry := do
  let method ← u16
  return { method, arguments := ← counted u16 }

/-- Reads the data of a bootstrap table. -/
def parseAll (data : List UInt8) : Except Error (List BootstrapEntry) :=
  Bytes.parse (counted read) data

end BootstrapEntry

end Untangle
