import Untangle.Code.Assembly
import Untangle.Code.Disassembly

/-!
# Classes

A class taken apart as far as the simplifications need it: its members by name, and the code of its
methods as bodies. The class file it came from stays at hand, so that what nobody touched is written
back byte for byte; its constant pool only ever grows.

A method whose code cannot be decoded has no body and is written back as it is.
-/

namespace Untangle

/-- The access flags of a class or member; the highest bit has no meaning and is dropped. -/
structure Access where
  bits : UInt16
deriving DecidableEq, Repr, Inhabited

namespace Access

/-- The flags among some bits. -/
def ofBits (bits : UInt16) : Access := ⟨bits &&& 0x7fff⟩

def isPrivate (a : Access) : Bool := a.bits &&& 0x0002 != 0

def isStatic (a : Access) : Bool := a.bits &&& 0x0008 != 0

def isFinal (a : Access) : Bool := a.bits &&& 0x0010 != 0

/-- What a new class has: public, with the modern rule for calls to inherited methods. -/
def newClass : Access := ⟨0x0021⟩

end Access

/-- A field of a class. -/
structure Field where
  access : Access
  name : String
  descriptor : String
  /-- How the class file has it. -/
  record : MemberRecord
deriving DecidableEq, Repr, Inhabited

/-- A method of a class. -/
structure Method where
  access : Access
  name : String
  descriptor : String
  /-- `none` without code, and if the code cannot be decoded. -/
  body : Option Body
  /-- How the class file has it. -/
  record : MemberRecord
  /-- Was not read from a class file, so that its code has to be encoded in any case. -/
  fresh : Bool
deriving DecidableEq, Repr, Inhabited

def Field.signature (f : Field) : Signature := ⟨f.name, f.descriptor⟩

namespace Method

def signature (m : Method) : Signature := ⟨m.name, m.descriptor⟩

def isStatic (m : Method) : Bool := m.access.isStatic

/-- The code has to be encoded anew. -/
def isModified (m : Method) : Bool := m.fresh || m.body.any Body.isModified

/-- The instructions of the body, none without one. -/
def instrs (m : Method) : List Instr := m.body.elim [] (·.code.instrs)

/-- The instructions that execute something. -/
def realInstrs (m : Method) : List Instr := m.instrs.filter Instruction.isReal

end Method

/-- A class. -/
structure ClassUnit where
  name : String
  superName : Option String
  access : Access
  interfaces : List String
  fields : List Field
  methods : List Method
  file : ClassFile
  bootstraps : List BootstrapEntry
  /-- Members were added or removed. -/
  membersChanged : Bool
deriving Inhabited

namespace ClassUnit

/-! ### Reading -/

/-- Reads a field. -/
def field (pool : Pool) (r : MemberRecord) : Except Error Field := do
  let name ← pool.name r.name
  let descriptor ← pool.name r.descriptor
  return { access := Access.ofBits r.access, name, descriptor, record := r }

/-- The body of a method, `none` if there is no code or it cannot be decoded. That the attribute
itself can be read is required. -/
def body (pool : Pool) (bootstraps : List BootstrapEntry) (r : MemberRecord) :
    Except Error (Option Body) := do
  match pool.findAttribute r.attributes "Code" with
  | none => return none
  | some a =>
    let code ← CodeAttribute.parse a.data
    return (disassemble code pool bootstraps).toOption

/-- Reads a method. -/
def method (pool : Pool) (bootstraps : List BootstrapEntry) (r : MemberRecord) :
    Except Error Method := do
  let name ← pool.name r.name
  let descriptor ← pool.name r.descriptor
  let body ← body pool bootstraps r
  return { access := Access.ofBits r.access, name, descriptor, body, record := r, fresh := false }

/-- Takes a class file apart. -/
def ofFile (file : ClassFile) : Except Error ClassUnit := do
  let pool := file.pool
  let name ← pool.className file.thisClass
  let superName ←
    if file.superClass = 0 then pure none else some <$> pool.className file.superClass
  let interfaces ← file.interfaces.mapM pool.className
  let bootstraps ← match pool.findAttribute file.attributes "BootstrapMethods" with
    | some a => BootstrapEntry.parseAll a.data
    | none => pure []
  let fields ← file.fields.mapM (field pool)
  let methods ← file.methods.mapM (method pool bootstraps)
  return { name, superName, access := Access.ofBits file.access, interfaces, fields, methods, file,
           bootstraps, membersChanged := false }

/-- Reads a class from the bytes of its file. -/
def parse (data : List UInt8) : Except Error ClassUnit := do ofFile (← ClassFile.parse data)

/-! ### Building -/

/-- A class without members. -/
def new (name superName : String) : Except Error ClassUnit :=
  let classes : Interning (UInt16 × UInt16) := do
    let this ← Pool.internClass name
    let super ← Pool.internClass superName
    return (this, super)
  match classes Pool.empty with
  | .error e _ => .error e
  | .ok (thisClass, superClass) pool =>
    .ok { name, superName := some superName, access := Access.newClass, interfaces := [], fields := [],
          methods := [], bootstraps := [], membersChanged := true
          file := { minor := 0, major := 52, pool, access := Access.newClass.bits, thisClass, superClass,
                    interfaces := [], fields := [], methods := [], attributes := [] } }

/-- A change to a class that may fail. Constants interned before the failure stay. -/
abbrev Editing := EStateM Error ClassUnit

/-- Interns constants in the class's pool. -/
def interning {α : Type} (m : Interning α) : Editing α := fun u =>
  match m u.file.pool with
  | .ok a pool => .ok a { u with file := { u.file with pool } }
  | .error e pool => .error e { u with file := { u.file with pool } }

/-- The record of a member without attributes. -/
def newRecord (access : Access) (name descriptor : String) : Editing MemberRecord := do
  let nameIndex ← interning (Pool.internName name)
  let descriptorIndex ← interning (Pool.internName descriptor)
  return ⟨access.bits, nameIndex, descriptorIndex, []⟩

/-- Adds a field. -/
def addField (access : Access) (name descriptor : String) : Editing Unit := do
  let record ← newRecord access name descriptor
  modify fun u =>
    { u with fields := u.fields ++ [{ access, name, descriptor, record }], membersChanged := true }

/-- Adds a method, in the place of one with the same name and descriptor. -/
def addMethod (access : Access) (name descriptor : String) (body : Option Body) : Editing Unit := do
  let record ← newRecord access name descriptor
  modify fun u =>
    let others := u.methods.filter fun m => !(m.name == name && m.descriptor == descriptor)
    { u with methods := others ++ [{ access, name, descriptor, body, record, fresh := true }]
             membersChanged := true }

/-- The first method with this name and descriptor. -/
def findMethod? (u : ClassUnit) (name descriptor : String) : Option Method :=
  u.methods.find? fun m => m.name == name && m.descriptor == descriptor

/-- Removes the methods that satisfy a test, and counts them. -/
def removeMethods (u : ClassUnit) (test : Method → Bool) : Nat × ClassUnit :=
  match u.methods.countP test with
  | 0 => (0, u)
  | removed =>
    (removed, { u with methods := u.methods.filter (fun m => !test m), membersChanged := true })

/-- Removes the fields that satisfy a test, and counts them. -/
def removeFields (u : ClassUnit) (test : Field → Bool) : Nat × ClassUnit :=
  match u.fields.countP test with
  | 0 => (0, u)
  | removed =>
    (removed, { u with fields := u.fields.filter (fun f => !test f), membersChanged := true })

/-- Differs from what was read. -/
def isModified (u : ClassUnit) : Bool := u.membersChanged || u.methods.any Method.isModified

/-! ### Writing -/

/-- The code of a body with limits no lower than those of the code it replaces. -/
def atLeast (code : CodeAttribute) (old : Option CodeAttribute) : CodeAttribute :=
  match old with
  | some old =>
    { code with maxStack := max code.maxStack old.maxStack
                maxLocals := max code.maxLocals old.maxLocals }
  | none => code

/-- The record of a method: as it was, or with its body as the one code attribute, put last. -/
def methodRecord (codeName : UInt16) (m : Method) : Interning MemberRecord := do
  match m.body with
  | none => return m.record
  | some b =>
    if m.isModified then
      let code ← assemble b
      let old := m.record.attributes.find? (·.name == codeName)
      let code := atLeast code (old.bind fun a => (CodeAttribute.parse a.data).toOption)
      let others := m.record.attributes.filter (·.name != codeName)
      return { m.record with attributes := others ++ [⟨codeName, code.bytes⟩] }
    else return m.record

/-- The class file of a class. -/
def toFile (u : ClassUnit) : Except Error ClassFile :=
  let records : Interning (List MemberRecord) := do
    let codeName ← Pool.internName "Code"
    u.methods.mapM (methodRecord codeName)
  match records u.file.pool with
  | .error e _ => .error e
  | .ok methods pool => .ok { u.file with pool, methods, fields := u.fields.map Field.record }

/-- The bytes of the class's file. -/
def bytes (u : ClassUnit) : Except Error (List UInt8) := u.toFile.map ClassFile.bytes

end ClassUnit

end Untangle
