import Untangle.Descriptor
import Untangle.Text.Utf16

/-!
# Instructions

The instructions of a method body, with every name, literal and jump target resolved: constants are
values and not pool slots, and targets are labels and not offsets. Two kinds of entry execute
nothing: a `label`, which gives a place a name, and a `line`, which says that a source line starts.

Opcodes that need no closer look by any rewriting are kept by number (`plain`).

What a jump names as its target is a parameter: a label in a method body (`Instr`), an offset in
code that is being read from bytes.
-/

namespace Untangle

/-- A name for a place in the code. -/
abbrev Label := Nat

/-- The kinds in the order in which opcodes count them. -/
def ValueKind.all : List ValueKind := [.int, .long, .float, .double, .ref]

/-- The kind of number an arithmetic instruction works on. -/
inductive NumKind where
  | int | long | float | double
deriving DecidableEq, Repr, Inhabited

/-- The kinds in the order in which opcodes count them. -/
def NumKind.all : List NumKind := [.int, .long, .float, .double]

/-- A number kind seen as a kind of value. -/
def NumKind.valueKind : NumKind → ValueKind
  | .int => .int
  | .long => .long
  | .float => .float
  | .double => .double

/-- An arithmetic operator. -/
inductive MathOp where
  | add | sub | mul | div | rem | neg | shl | shr | ushr | and | or | xor
deriving DecidableEq, Repr, Inhabited

namespace MathOp

/-- The operators in the order in which opcodes count them. -/
def all : List MathOp := [add, sub, mul, div, rem, neg, shl, shr, ushr, and, or, xor]

/-- Takes one operand. -/
def isUnary (op : MathOp) : Bool := op == neg

/-- Takes its right operand, the distance, as an `int`, whatever it shifts. -/
def isShift : MathOp → Bool
  | shl | shr | ushr => true
  | _ => false

end MathOp

/-- A value that one instruction pushes. Floating-point values are kept as bit patterns. -/
inductive Literal where
  | int (value : Int32)
  | long (value : Int64)
  | float (bits : UInt32)
  | double (bits : UInt64)
  | text (value : Utf16)
  | null
  /-- A class literal, by internal name. -/
  | type (name : String)
  | methodType (descriptor : String)
  /-- Any other loadable constant, by pool slot. -/
  | pooled (index : UInt16) (wide : Bool)
deriving DecidableEq, Repr, Inhabited

/-- Stack slots the value takes. -/
def Literal.slots : Literal → Nat
  | .long _ | .double _ | .pooled _ true => 2
  | _ => 1

/-- A field or method of a class, by name and descriptor. -/
structure Signature where
  name : String
  descriptor : String
deriving DecidableEq, Repr, Inhabited

/-- A field or method together with the class that it is looked up in. -/
structure Member where
  owner : String
  name : String
  descriptor : String
deriving DecidableEq, Repr, Inhabited

/-- The member without its class. -/
def Member.signature (m : Member) : Signature := ⟨m.name, m.descriptor⟩

inductive FieldOp where
  | getStatic | putStatic | getField | putField
deriving DecidableEq, Repr, Inhabited

def FieldOp.all : List FieldOp := [.getStatic, .putStatic, .getField, .putField]

inductive InvokeKind where
  | virtual | special | static | interface
deriving DecidableEq, Repr, Inhabited

def InvokeKind.all : List InvokeKind := [.virtual, .special, .static, .interface]

/-- The instructions that take a class. -/
inductive TypeOp where
  | new | newArray | checkCast | instanceOf
deriving DecidableEq, Repr, Inhabited

def TypeOp.all : List TypeOp := [.new, .newArray, .checkCast, .instanceOf]

inductive StackOp where
  | pop | pop2 | dup | dupX1 | dupX2 | dup2 | dup2X1 | dup2X2 | swap
deriving DecidableEq, Repr, Inhabited

def StackOp.all : List StackOp := [.pop, .pop2, .dup, .dupX1, .dupX2, .dup2, .dup2X1, .dup2X2, .swap]

/-- What a conditional jump tests: an `int` against zero, two `int`s, two references, or a reference
against `null`. -/
inductive Condition where
  | eq | ne | lt | ge | gt | le
  | intEq | intNe | intLt | intGe | intGt | intLe
  | refEq | refNe
  | isNull | nonNull
deriving DecidableEq, Repr, Inhabited

namespace Condition

/-- The tests in the order in which opcodes count them. -/
def all : List Condition :=
  [eq, ne, lt, ge, gt, le, intEq, intNe, intLt, intGe, intGt, intLe, refEq, refNe, isNull, nonNull]

/-- Stack operands the test pops. -/
def operandCount : Condition → Nat
  | intEq | intNe | intLt | intGe | intGt | intLe | refEq | refNe => 2
  | _ => 1

/-- The opposite test. -/
def invert : Condition → Condition
  | eq => ne
  | ne => eq
  | lt => ge
  | ge => lt
  | gt => le
  | le => gt
  | intEq => intNe
  | intNe => intEq
  | intLt => intGe
  | intGe => intLt
  | intGt => intLe
  | intLe => intGt
  | refEq => refNe
  | refNe => refEq
  | isNull => nonNull
  | nonNull => isNull

end Condition

/-- A method handle: what to do (kinds 1 to 4 access a field, the others call) and to which member. -/
structure Handle where
  kind : UInt8
  member : Member
  isInterface : Bool
deriving DecidableEq, Repr, Inhabited

/-- A static argument of a dynamic call site. -/
inductive BootstrapArg where
  | literal (value : Literal)
  | handle (value : Handle)
  /-- A constant that is not looked into, by pool slot. -/
  | other (index : UInt16)
deriving DecidableEq, Repr, Inhabited

/-- A dynamic call site: its name and type, and the routine that links it. -/
structure CallSite where
  /-- The pool slot of the site itself. -/
  index : UInt16
  name : String
  descriptor : String
  bootstrapIndex : UInt16
  bootstrap : Handle
  arguments : List BootstrapArg
deriving DecidableEq, Repr, Inhabited

/-- One entry of a method's code, with jump targets of type `τ`. -/
inductive Instruction (τ : Type) where
  | label (name : Label)
  | line (number : UInt16)
  | push (value : Literal)
  | load (kind : ValueKind) (slot : UInt16)
  | store (kind : ValueKind) (slot : UInt16)
  | increment (slot : UInt16) (delta : Int16)
  | field (op : FieldOp) (member : Member)
  | invoke (kind : InvokeKind) (member : Member) (isInterface : Bool)
  | invokeDynamic (site : CallSite)
  | typed (op : TypeOp) (name : String)
  /-- An array of the primitive type with this code. -/
  | newArray (element : UInt8)
  | newMultiArray (name : String) (dims : UInt8)
  | jump (target : τ)
  | branch (cond : Condition) (target : τ)
  | tableSwitch (low high : Int32) (otherwise : τ) (targets : List τ)
  | lookupSwitch (otherwise : τ) (pairs : List (Int32 × τ))
  | stack (op : StackOp)
  | math (kind : NumKind) (op : MathOp)
  /-- Leaves the method, with a value unless it is `void`. -/
  | leave (kind : Option ValueKind)
  /-- Throws the exception on top of the stack. -/
  | raise
  /-- Calls a subroutine inside the method. -/
  | callSub (target : τ)
  /-- Returns from a subroutine inside the method. -/
  | leaveSub (slot : UInt16)
  /-- An instruction without operands that is not told apart further. -/
  | plain (opcode : UInt8)
deriving DecidableEq, Repr, Inhabited

/-- An entry of a method body, which names its targets by label. -/
abbrev Instr := Instruction Label

namespace Instruction

variable {τ σ : Type}

/-- Executes something: neither a label nor a line. -/
def isReal : Instruction τ → Bool
  | label _ | line _ => false
  | _ => true

/-- Whether execution can go on to the next entry. -/
def fallsThrough : Instruction τ → Bool
  | jump _ | leave _ | raise | tableSwitch .. | lookupSwitch .. | leaveSub _ => false
  | _ => true

/-- Every place control can go to, the cases of a switch before its default. -/
def targets : Instruction τ → List τ
  | jump target | callSub target | branch _ target => [target]
  | tableSwitch _ _ otherwise targets => targets ++ [otherwise]
  | lookupSwitch otherwise pairs => pairs.map Prod.snd ++ [otherwise]
  | _ => []

/-- The targets in the order in which code spells them out: the default of a switch comes first. -/
def targetsAsWritten : Instruction τ → List τ
  | tableSwitch _ _ otherwise targets => otherwise :: targets
  | lookupSwitch otherwise pairs => otherwise :: pairs.map Prod.snd
  | i => i.targets

/-- Names some target. -/
def isJump (i : Instruction τ) : Bool := !i.targets.isEmpty

/-- Puts something else in the place of every target. -/
def mapTargets (f : τ → σ) : Instruction τ → Instruction σ
  | jump target => jump (f target)
  | callSub target => callSub (f target)
  | branch cond target => branch cond (f target)
  | tableSwitch low high otherwise targets => tableSwitch low high (f otherwise) (targets.map f)
  | lookupSwitch otherwise pairs =>
    lookupSwitch (f otherwise) (pairs.map fun (key, target) => (key, f target))
  | label name => label name
  | line number => line number
  | push value => push value
  | load kind slot => load kind slot
  | store kind slot => store kind slot
  | increment slot delta => increment slot delta
  | field op member => field op member
  | invoke kind member isInterface => invoke kind member isInterface
  | invokeDynamic site => invokeDynamic site
  | typed op name => typed op name
  | newArray element => newArray element
  | newMultiArray name dims => newMultiArray name dims
  | stack op => stack op
  | math kind op => math kind op
  | leave kind => leave kind
  | raise => raise
  | leaveSub slot => leaveSub slot
  | plain opcode => plain opcode

/-- The literal an instruction pushes. -/
def literal? : Instruction τ → Option Literal
  | push value => some value
  | _ => none

/-- The label an entry binds. -/
def label? : Instruction τ → Option Label
  | label name => some name
  | _ => none

end Instruction

end Untangle
