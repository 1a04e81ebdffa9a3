import Untangle.Pool.Format

/-!
# Class files

A class as its file lays it out: everything by slot of the constant pool, attributes as bytes. Each
record has a reader and a writer; reading stops where the record ends and does not look at what
follows.
-/

namespace Untangle

open Bytes

/-- A named piece of data attached to a class, a member or a method's code. -/
structure Attribute where
  name : UInt16
  data : List UInt8
deriving DecidableEq, Repr, Inhabited

namespace Attribute

def read : Reader Attribute := do
  let name ← u16
  let length ← u32
  return { name, data := ← take length.toNat }

def bytes (a : Attribute) : List UInt8 := be16 a.name ++ (count32 a.data.length ++ a.data)

def readAll : Reader (List Attribute) := counted read

def bytesAll (as : List Attribute) : List UInt8 := count16 as.length ++ as.flatMap bytes

end Attribute

/-- A field or method of a class file. -/
structure MemberRecord where
  access : UInt16
  name : UInt16
  descriptor : UInt16
  attributes : List Attribute
deriving DecidableEq, Repr, Inhabited

namespace MemberRecord

def read : Reader MemberRecord := do
  let access ← u16
  let name ← u16
  let descriptor ← u16
  return { access, name, descriptor, attributes := ← Attribute.readAll }

def bytes (m : MemberRecord) : List UInt8 :=
  be16 m.access ++ (be16 m.name ++ (be16 m.descriptor ++ Attribute.bytesAll m.attributes))

def readAll : Reader (List MemberRecord) := counted read

def bytesAll (ms : List MemberRecord) : List UInt8 := count16 ms.length ++ ms.flatMap bytes

end MemberRecord

/-- A class file. -/
structure ClassFile where
  minor : UInt16
  major : UInt16
  pool : Pool
  access : UInt16
  thisClass : UInt16
  /-- 0 for the one class that extends nothing. -/
  superClass : UInt16
  interfaces : List UInt16
  fields : List MemberRecord
  methods : List MemberRecord
  attributes : List Attribute
deriving Inhabited

namespace ClassFile

/-- The number every class file starts with. -/
def magic : UInt32 := 0xCAFEBABE

/-- Starts like a class file. -/
def hasMagic (data : List UInt8) : Bool := data.take 4 == be32 magic

/-- Reads a class file. -/
def read : Reader ClassFile := do
  let found ← u32
  if found != magic then throw (.badMagic found)
  let minor ← u16
  let major ← u16
  let pool ← Pool.read
  let access ← u16
  let thisClass ← u16
  let superClass ← u16
  let interfaces ← counted u16
  let fields ← MemberRecord.readAll
  let methods ← MemberRecord.readAll
  let attributes ← Attribute.readAll
  return { minor, major, pool, access, thisClass, superClass, interfaces, fields, methods, attributes }

/-- Reads a class file from the front of some bytes. -/
def parse (data : List UInt8) : Except Error ClassFile := Bytes.parse read data

/-- The class file as bytes. -/
def bytes (c : ClassFile) : List UInt8 :=
  be32 magic ++ (be16 c.minor ++ (be16 c.major ++ (c.pool.bytes ++ (be16 c.access ++
    (be16 c.thisClass ++ (be16 c.superClass ++ (count16 c.interfaces.length ++
      (c.interfaces.flatMap be16 ++ (MemberRecord.bytesAll c.fields ++
        (MemberRecord.bytesAll c.methods ++ Attribute.bytesAll c.attributes))))))))))

end ClassFile

namespace Pool

/-- The first attribute with this name. One whose name cannot be read is passed over. -/
def findAttribute (p : Pool) (attributes : List Attribute) (name : String) : Option Attribute :=
  attributes.find? fun a =>
    match p.name a.name with
    | .ok n => n == name
    | .error _ => false

end Pool

end Untangle
