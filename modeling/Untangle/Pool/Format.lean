import Untangle.Bytes
import Untangle.Pool

/-!
# The constant pool as bytes

A slot count, then each constant as a tag and its parts. The count covers the empty slots, which
have no bytes of their own: after a wide constant the next one is two slots further on.
-/

namespace Untangle

namespace Constant

open Bytes

/-- A constant's tag and parts. -/
def bytes : Constant → List UInt8
  | utf8 data => 1 :: (count16 data.length ++ data)
  | integer value => 3 :: be32 value.toUInt32
  | float bits => 4 :: be32 bits
  | long value => 5 :: be64 value.toUInt64
  | double bits => 6 :: be64 bits
  | .class name => 7 :: be16 name
  | string text => 8 :: be16 text
  | fieldRef owner signature => 9 :: (be16 owner ++ be16 signature)
  | methodRef owner signature => 10 :: (be16 owner ++ be16 signature)
  | interfaceMethodRef owner signature => 11 :: (be16 owner ++ be16 signature)
  | nameAndType name descriptor => 12 :: (be16 name ++ be16 descriptor)
  | methodHandle kind reference => 15 :: kind :: be16 reference
  | methodType descriptor => 16 :: be16 descriptor
  | dynamic bootstrap signature => 17 :: (be16 bootstrap ++ be16 signature)
  | invokeDynamic bootstrap signature => 18 :: (be16 bootstrap ++ be16 signature)
  | module name => 19 :: be16 name
  | package name => 20 :: be16 name

/-- Reads two slot numbers. -/
def readPair (make : UInt16 → UInt16 → Constant) : Reader Constant := do
  let a ← u16
  let b ← u16
  return make a b

/-- Reads the parts that follow a tag. -/
def readParts : UInt8 → Reader Constant
  | 1 => do
    let n ← u16
    return utf8 (← take n.toNat)
  | 3 => do return integer (← u32).toInt32
  | 4 => do return float (← u32)
  | 5 => do return long (← u64).toInt64
  | 6 => do return double (← u64)
  | 7 => do return .class (← u16)
  | 8 => do return string (← u16)
  | 9 => readPair fieldRef
  | 10 => readPair methodRef
  | 11 => readPair interfaceMethodRef
  | 12 => readPair nameAndType
  | 15 => do
    let kind ← u8
    return methodHandle kind (← u16)
  | 16 => do return methodType (← u16)
  | 17 => readPair dynamic
  | 18 => readPair invokeDynamic
  | 19 => do return module (← u16)
  | 20 => do return package (← u16)
  | tag => throw (.unknownConstantTag tag)

/-- Reads one constant. -/
def read : Reader Constant := do readParts (← u8)

end Constant

namespace Pool

open Bytes

/-- The pool as bytes. -/
def bytes (p : Pool) : List UInt8 :=
  count16 p.size ++ p.slots.toList.flatMap fun slot => slot.elim [] Constant.bytes

/-- Reads constants until `left` slots are filled. A wide constant in the last of them takes one
slot more, unless that one would be numbered 65535. -/
def readSlots : Nat → Pool → Reader Pool
  | 0, p => fun s => .ok (p, s)
  | left + 1, p => fun s =>
    match Constant.read s with
    | .error e => .error e
    | .ok (c, rest) =>
      if c.isWide then
        match left with
        | 0 => if p.size = 65534 then .error .slotOverflow else .ok (p.append c, rest)
        | left + 1 => readSlots left (p.append c) rest
      else readSlots left (p.append c) rest

/-- Reads a pool: the number of slots, slot 0 included, and the constants that fill them. -/
def read : Reader Pool := do
  let count ← u16
  readSlots (count.toNat - 1) empty

end Pool

end Untangle
