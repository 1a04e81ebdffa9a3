import Untangle.Instr
import Untangle.Numeric.Decimal
import Untangle.Opcode
import Untangle.Text.Quoted

/-!
# Instructions as text

The names of operators and the line a listing or a graph shows for each instruction.
-/

namespace Untangle

/-- The letter an instruction on this kind of value starts with. -/
def ValueKind.letter : ValueKind → String
  | .int => "i"
  | .long => "l"
  | .float => "f"
  | .double => "d"
  | .ref => "a"

def ValueKind.name : ValueKind → String
  | .int => "Int"
  | .long => "Long"
  | .float => "Float"
  | .double => "Double"
  | .ref => "Ref"

def NumKind.name (k : NumKind) : String := k.valueKind.name

def MathOp.name : MathOp → String
  | .add => "Add"
  | .sub => "Sub"
  | .mul => "Mul"
  | .div => "Div"
  | .rem => "Rem"
  | .neg => "Neg"
  | .shl => "Shl"
  | .shr => "Shr"
  | .ushr => "Ushr"
  | .and => "And"
  | .or => "Or"
  | .xor => "Xor"

/-- The operator's part of an instruction's mnemonic. -/
def MathOp.stem : MathOp → String
  | .add => "add"
  | .sub => "sub"
  | .mul => "mul"
  | .div => "div"
  | .rem => "rem"
  | .neg => "neg"
  | .shl => "shl"
  | .shr => "shr"
  | .ushr => "ushr"
  | .and => "and"
  | .or => "or"
  | .xor => "xor"

def FieldOp.name : FieldOp → String
  | .getStatic => "GetStatic"
  | .putStatic => "PutStatic"
  | .getField => "GetField"
  | .putField => "PutField"

def InvokeKind.name : InvokeKind → String
  | .virtual => "Virtual"
  | .special => "Special"
  | .static => "Static"
  | .interface => "Interface"

def TypeOp.name : TypeOp → String
  | .new => "New"
  | .newArray => "ANewArray"
  | .checkCast => "CheckCast"
  | .instanceOf => "InstanceOf"

def StackOp.name : StackOp → String
  | .pop => "Pop"
  | .pop2 => "Pop2"
  | .dup => "Dup"
  | .dupX1 => "DupX1"
  | .dupX2 => "DupX2"
  | .dup2 => "Dup2"
  | .dup2X1 => "Dup2X1"
  | .dup2X2 => "Dup2X2"
  | .swap => "Swap"

def Condition.name : Condition → String
  | .eq => "IfEq"
  | .ne => "IfNe"
  | .lt => "IfLt"
  | .ge => "IfGe"
  | .gt => "IfGt"
  | .le => "IfLe"
  | .intEq => "IcmpEq"
  | .intNe => "IcmpNe"
  | .intLt => "IcmpLt"
  | .intGe => "IcmpGe"
  | .intGt => "IcmpGt"
  | .intLe => "IcmpLe"
  | .refEq => "AcmpEq"
  | .refNe => "AcmpNe"
  | .isNull => "IfNull"
  | .nonNull => "IfNonNull"

namespace Literal

/-- What a listing shows for a literal. -/
def shown : Literal → String
  | int v => "int " ++ toString v.toInt
  | long v => "long " ++ toString v.toInt
  | float bits => "float " ++ Decimal.text .single bits.toNat
  | double bits => "double " ++ Decimal.text .double bits.toNat
  | text s => Text.quoted s.lossy
  | null => "null"
  | type name => "class " ++ name
  | methodType descriptor => "methodtype " ++ descriptor
  | pooled index _ => "#" ++ toString index.toNat

end Literal

/-- What a listing shows for a label. -/
def Label.shown (l : Label) : String := "L" ++ Nat.repr l

namespace Instruction

/-- What a listing shows for an instruction. -/
def shown : Instr → String
  | label name => Label.shown name ++ ":"
  | line number => "line " ++ toString number.toNat
  | push value => "push " ++ value.shown
  | load kind slot => kind.letter ++ "load " ++ toString slot.toNat
  | store kind slot => kind.letter ++ "store " ++ toString slot.toNat
  | increment slot delta => "iinc " ++ toString slot.toNat ++ " " ++ toString delta.toInt
  | field op m => op.name ++ " " ++ m.owner ++ "." ++ m.name ++ " " ++ m.descriptor
  | invoke kind m _ => "invoke" ++ kind.name ++ " " ++ m.owner ++ "." ++ m.name ++ m.descriptor
  | invokeDynamic site => "invokedynamic " ++ site.name ++ site.descriptor
  | typed op name => op.name ++ " " ++ name
  | newArray element => "newarray " ++ toString element.toNat
  | newMultiArray name dims => "multianewarray " ++ name ++ " " ++ toString dims.toNat
  | jump target => "goto " ++ Label.shown target
  | branch cond target => cond.name ++ " " ++ Label.shown target
  | tableSwitch low high _ _ => "tableswitch [" ++ toString low.toInt ++ ", " ++ toString high.toInt ++ "]"
  | lookupSwitch _ pairs => "lookupswitch (" ++ toString pairs.length ++ " keys)"
  | stack op => op.name
  | math kind op => kind.valueKind.letter ++ op.stem
  | leave (some kind) => kind.letter ++ "return"
  | leave none => "return"
  | raise => "athrow"
  | callSub target => "jsr " ++ Label.shown target
  | leaveSub slot => "ret " ++ toString slot.toNat
  | plain opcode => Opcode.mnemonic opcode

end Instruction

end Untangle
