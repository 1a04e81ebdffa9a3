import Std.Data.TreeMap.Basic
import Untangle.Instr
import Untangle.Text.ModifiedUtf8

/-!
# The constant pool

The numbered constants of a class. Slots count from 1; a `long` or a `double` takes two of them, of
which the second holds nothing. A slot once filled never changes: new constants go to the end, and
`intern` gives back the slot of an equal constant if there is one.

`first?` says which slot an equal constant has by looking at the slots; `index` remembers the same
for every constant, so that interning does not have to search.
-/

namespace Untangle

/-- A constant, with other constants named by their slots. Floating-point values are kept as bit
patterns and text as encoded bytes. -/
inductive Constant where
  | utf8 (bytes : List UInt8)
  | integer (value : Int32)
  | float (bits : UInt32)
  | long (value : Int64)
  | double (bits : UInt64)
  | class (name : UInt16)
  | string (text : UInt16)
  | fieldRef (owner signature : UInt16)
  | methodRef (owner signature : UInt16)
  | interfaceMethodRef (owner signature : UInt16)
  | nameAndType (name descriptor : UInt16)
  | methodHandle (kind : UInt8) (reference : UInt16)
  | methodType (descriptor : UInt16)
  | dynamic (bootstrap signature : UInt16)
  | invokeDynamic (bootstrap signature : UInt16)
  | module (name : UInt16)
  | package (name : UInt16)
deriving DecidableEq, Repr, Inhabited

namespace Constant

/-- Takes two slots. -/
def isWide : Constant → Bool
  | long _ | double _ => true
  | _ => false

/-- Slots the constant takes. -/
def width (c : Constant) : Nat := if c.isWide then 2 else 1

/-- Numbers that tell the constant from every other one: the kind first, then its parts. -/
def key : Constant → List Nat
  | utf8 bytes => 1 :: bytes.map UInt8.toNat
  | integer value => [3, value.toUInt32.toNat]
  | float bits => [4, bits.toNat]
  | long value => [5, value.toUInt64.toNat]
  | double bits => [6, bits.toNat]
  | .class name => [7, name.toNat]
  | string text => [8, text.toNat]
  | fieldRef owner signature => [9, owner.toNat, signature.toNat]
  | methodRef owner signature => [10, owner.toNat, signature.toNat]
  | interfaceMethodRef owner signature => [11, owner.toNat, signature.toNat]
  | nameAndType name descriptor => [12, name.toNat, descriptor.toNat]
  | methodHandle kind reference => [15, kind.toNat, reference.toNat]
  | methodType descriptor => [16, descriptor.toNat]
  | dynamic bootstrap signature => [17, bootstrap.toNat, signature.toNat]
  | invokeDynamic bootstrap signature => [18, bootstrap.toNat, signature.toNat]
  | module name => [19, name.toNat]
  | package name => [20, name.toNat]

end Constant

/-- The constants of a class by slot. Slot 0 and the second slot of a wide constant are `none`. -/
structure Pool where
  slots : Array (Option Constant) := #[none]
  /-- The first slot of each constant, by the constant's key. -/
  index : Std.TreeMap (List Nat) UInt16 := ∅

instance : Inhabited Pool := ⟨{}⟩

namespace Pool

/-- A pool without constants. -/
def empty : Pool := {}

/-- Number of slots, slot 0 included. -/
def size (p : Pool) : Nat := p.slots.size

/-- Holds no constant. -/
def isEmpty (p : Pool) : Bool := p.size ≤ 1

/-- The first slot that holds an equal constant, found by looking at every slot. -/
def first? (p : Pool) (c : Constant) : Option Nat := p.slots.findIdx? (· == some c)

/-- Adds a constant at the end, without a look at what is there. An equal constant that came earlier
keeps being the first. -/
def append : Pool → Constant → Pool
  | ⟨slots, index⟩, c =>
    let i := UInt16.ofNat slots.size
    { slots := if c.isWide then (slots.push (some c)).push none else slots.push (some c)
      index := index.insertIfNew c.key i }

/-! ### Looking up -/

/-- The constant in a slot. -/
def get (p : Pool) (i : UInt16) : Except Error Constant :=
  match p.slots[i.toNat]? with
  | some (some c) => .ok c
  | _ => .error (.invalidConstantIndex i)

/-- The text in a slot. -/
def utf8 (p : Pool) (i : UInt16) : Except Error Utf16 := do
  match ← p.get i with
  | .utf8 bytes => ModifiedUtf8.decode bytes
  | _ => .error (.unexpectedConstant i "Utf8")

/-- The text in a slot as a name, lone surrogates replaced. -/
def name (p : Pool) (i : UInt16) : Except Error String := do return (← p.utf8 i).lossy

/-- The name of the class in a slot. -/
def className (p : Pool) (i : UInt16) : Except Error String := do
  match ← p.get i with
  | .class n => p.name n
  | _ => .error (.unexpectedConstant i "Class")

/-- The string literal in a slot. -/
def string (p : Pool) (i : UInt16) : Except Error Utf16 := do
  match ← p.get i with
  | .string text => p.utf8 text
  | _ => .error (.unexpectedConstant i "String")

/-- The name and descriptor in a slot. -/
def nameAndType (p : Pool) (i : UInt16) : Except Error Signature := do
  match ← p.get i with
  | .nameAndType n d => return ⟨← p.name n, ← p.name d⟩
  | _ => .error (.unexpectedConstant i "NameAndType")

/-- The field or method in a slot, and whether its class is an interface. -/
def member (p : Pool) (i : UInt16) : Except Error (Member × Bool) := do
  let resolve (owner signature : UInt16) (isInterface : Bool) : Except Error (Member × Bool) := do
    let s ← p.nameAndType signature
    return (⟨← p.className owner, s.name, s.descriptor⟩, isInterface)
  match ← p.get i with
  | .fieldRef o s | .methodRef o s => resolve o s false
  | .interfaceMethodRef o s => resolve o s true
  | _ => .error (.unexpectedConstant i "member reference")

end Pool

/-! ### Interning -/

/-- A computation that may add constants to a pool. What was added stays even if it fails later. -/
abbrev Interning := EStateM Error Pool

/-- A result that does not depend on the pool. -/
def Interning.lift {α : Type} (result : Except Error α) : Interning α := fun p =>
  match result with
  | .ok a => .ok a p
  | .error e => .error e p

instance : MonadLift (Except Error) Interning := ⟨Interning.lift⟩

namespace Pool

/-- The slot of an equal constant, or of a new one at the end. No slot past 65534 is given out. -/
def intern (c : Constant) : Interning UInt16 := fun p =>
  match p.index[c.key]? with
  | some i => .ok i p
  | none =>
    if p.size + c.width > 65535 then .error .constantPoolOverflow p
    else .ok (UInt16.ofNat p.size) (p.append c)

def internUtf8 (text : Utf16) : Interning UInt16 := intern (.utf8 (ModifiedUtf8.encode text))

def internName (text : String) : Interning UInt16 := internUtf8 (Utf16.ofString text)

def internClass (name : String) : Interning UInt16 := do intern (.class (← internName name))

def internString (text : Utf16) : Interning UInt16 := do intern (.string (← internUtf8 text))

def internMethodType (descriptor : String) : Interning UInt16 := do
  intern (.methodType (← internName descriptor))

def internNameAndType (name descriptor : String) : Interning UInt16 := do
  intern (.nameAndType (← internName name) (← internName descriptor))

def internField (m : Member) : Interning UInt16 := do
  intern (.fieldRef (← internClass m.owner) (← internNameAndType m.name m.descriptor))

def internMethod (m : Member) (isInterface : Bool) : Interning UInt16 := do
  let owner ← internClass m.owner
  let nameAndType ← internNameAndType m.name m.descriptor
  intern (if isInterface then .interfaceMethodRef owner nameAndType else .methodRef owner nameAndType)

/-- Interns constants in order, up to the first that fails; the slot of the last, 0 for none. -/
def internAll (cs : List Constant) : Interning UInt16 := cs.foldlM (fun _ c => intern c) 0

end Pool

end Untangle
