import Untangle.Code.FlowIndex
import Untangle.Decryption.StaticData

/-!
# Decryption routines

The methods of a class that look like they turn literals into strings: static, returning a string,
with one to three parameters that literals can be passed for, and code that calls a cipher or an
encoder, reads a table, or computes on the input character by character.
-/

namespace Untangle

/-- A decryption routine: what it takes, and the tables it reads, in order. -/
structure Routine where
  params : List FieldType
  tables : List String
deriving DecidableEq, Repr, Inhabited

namespace FieldType

/-- A literal, or an array of bytes, can be passed for a parameter of the type. -/
def isCipherInput : FieldType → Bool
  | array element => element == byte
  | float | double => false
  | t => t.isLiteral

/-- An argument can be passed for a parameter of the type. -/
def accepts : FieldType → Argument → Bool
  | int, .int _ | short, .int _ | char, .int _ | byte, .int _ => true
  | long, .long _ => true
  | object name, .text _ => name == "java/lang/String"
  | array element, .bytes _ => element == byte
  | _, _ => false

end FieldType

namespace Routine

/-- Calls a class that ciphers, encodes or digests. -/
def usesCipher : Instr → Bool
  | .invoke _ m _ =>
    ["javax/crypto/Cipher", "java/util/Base64", "java/nio/ByteBuffer",
      "java/security/MessageDigest"].contains m.owner
  | _ => false

/-- Combines or subtracts numbers. -/
def computes : Instr → Bool
  | .math _ .xor | .math _ .sub => true
  | _ => false

/-- Handles single characters or bytes. -/
def walksInput : Instr → Bool
  | .plain opcode => [Opcode.caload, Opcode.castore, Opcode.baload, Opcode.bastore].contains opcode
  | .invoke _ m _ =>
    m.owner == "java/lang/String" && ["toCharArray", "charAt", "getBytes"].contains m.name
  | _ => false

/-- Some jump goes backwards. -/
def hasLoop (b : Body) : Bool :=
  let x := FlowIndex.of b
  x.jumps.any fun (l, id) =>
    match x.labelPosition? l, x.position? id with
    | some target, some source => source > target
    | _, _ => false

/-- The tables that an instruction reads. -/
def tableReads (owner : String) (tables : List (String × Table)) : Instr → List String
  | .field .getStatic m =>
    if m.owner = owner ∧ (tables.lookup m.name).isSome then [m.name] else []
  | _ => []

/-- Recognises a decryption routine of a class. -/
def of? (owner : String) (tables : List (String × Table)) (m : Method) : Option Routine := do
  if !m.isStatic || m.name.startsWith "<" then none
  else
    let d ← (MethodDescriptor.parse m.descriptor).toOption
    if d.returnsString && 1 ≤ d.params.length && d.params.length ≤ 3 &&
        d.params.all FieldType.isCipherInput then
      let b ← m.body
      let is := m.instrs
      let used := is.flatMap (tableReads owner tables)
      if is.any usesCipher || !used.isEmpty ||
          (is.any computes && (is.any walksInput || hasLoop b)) then
        some ⟨d.params, used⟩
      else none
    else none

end Routine

end Untangle
