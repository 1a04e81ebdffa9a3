import Untangle.Text.Hex

/-!
# What can go wrong

Every way in which reading, rewriting or writing a class can fail, as a cause; `Error.message` is
the one place that puts a cause into words.
-/

namespace Untangle

/-- Why an operation on classes, archives or jobs failed. -/
inductive Error where
  /-- The data ended before a value was complete. -/
  | endOfData
  /-- The file system, or the contents of an archive entry, could not be read or written. -/
  | storage
  /-- The data does not start with the class-file magic. -/
  | badMagic (magic : UInt32)
  /-- A declared length points past the end of the named structure. -/
  | truncated (what : String)
  /-- The slot is 0, past the end, or the second half of a wide constant. -/
  | invalidConstantIndex (index : UInt16)
  /-- The slot holds a constant of another kind. -/
  | unexpectedConstant (index : UInt16) (expected : String)
  /-- The byte at this offset starts no modified UTF-8 sequence. -/
  | invalidModifiedUtf8 (offset : Nat)
  /-- A constant has a tag the format does not define. -/
  | unknownConstantTag (tag : UInt8)
  /-- No slot is left for another constant. -/
  | constantPoolOverflow
  /-- No instruction has this opcode. -/
  | unknownOpcode (opcode : UInt8) (offset : Nat)
  /-- A jump or a protected range names an offset at which no instruction starts. -/
  | invalidBranchTarget (source : Nat) (target : Int)
  /-- The code ends inside an instruction. -/
  | truncatedCode
  /-- The instruction, shown as text, has no opcode. -/
  | unencodable (shown : String)
  /-- The code would be longer than 65535 bytes. -/
  | codeTooLarge
  /-- The text is no field or method descriptor. -/
  | invalidDescriptor (text : String)
  /-- A label is used but stands nowhere in the code. -/
  | unboundLabel (label : Nat)
  /-- The archive's own structure is damaged or of an unsupported kind. -/
  | archive
  /-- A class inside an archive could not be read. -/
  | load (name : String) (cause : Error)
  /-- The output refused an entry. -/
  | write (text : String)
  /-- A local slot or a pool slot would be numbered past 65535. -/
  | slotOverflow
  /-- A label would be numbered past 4294967295. -/
  | labelOverflow
  /-- A label would stand in the code twice. -/
  | labelTwice (label : Nat)
deriving DecidableEq, Repr, Inhabited

namespace Error

/-- A number would not fit its width. This stops everything that goes on, not only the work on one class. -/
def isOverflow : Error → Bool
  | slotOverflow | labelOverflow => true
  | _ => false

/-- The cause in words. -/
def message : Error → String
  | endOfData => "i/o error: failed to fill whole buffer"
  | storage => "i/o error"
  | badMagic magic => "input is not a compiled unit (magic 0x" ++ Hex.upper 8 magic.toNat ++ ")"
  | truncated what => "unexpected end of data while reading " ++ what
  | invalidConstantIndex index => "constant pool index " ++ toString index.toNat ++ " is out of range"
  | unexpectedConstant index expected =>
    "constant pool entry " ++ toString index.toNat ++ " is not a " ++ expected
  | invalidModifiedUtf8 offset => "malformed modified UTF-8 at byte " ++ toString offset
  | unknownConstantTag tag => "unknown constant pool tag " ++ toString tag.toNat
  | constantPoolOverflow => "constant pool is full"
  | unknownOpcode opcode offset =>
    "unknown opcode 0x" ++ Hex.upper 2 opcode.toNat ++ " at offset " ++ toString offset
  | invalidBranchTarget source target =>
    "branch from offset " ++ toString source ++ " lands at " ++ toString target ++
      ", which is not an instruction boundary"
  | truncatedCode => "bytecode ends in the middle of an instruction"
  | unencodable shown => "instruction `" ++ shown ++ "` has no encoding"
  | codeTooLarge => "method body exceeds 65535 bytes"
  | invalidDescriptor text => "invalid descriptor `" ++ text ++ "`"
  | unboundLabel label => "label " ++ toString label ++ " has no position in the instruction list"
  | archive => "container error"
  | load name cause => "failed to load `" ++ name ++ "`: " ++ cause.message
  | write text => "failed to write output: " ++ text
  | slotOverflow => "slot number exceeds 65535"
  | labelOverflow => "label number exceeds 4294967295"
  | labelTwice label => "label " ++ toString label ++ " placed twice"

end Error

end Untangle
