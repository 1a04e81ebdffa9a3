import Untangle.Instr.Text

/-!
# Evaluating arithmetic and tests

What an arithmetic instruction or a conditional jump does when its operands are known: wrapping
integers, shift distances taken modulo the width, and floating point rounded after each operation.
-/

namespace Untangle

/-- A number on the stack. Floating-point values are bit patterns. -/
inductive Value where
  | int (value : Int32)
  | long (value : Int64)
  | float (bits : UInt32)
  | double (bits : UInt64)
deriving DecidableEq, Repr, Inhabited

namespace Value

/-- The number a literal stands for. -/
def ofLiteral? : Literal → Option Value
  | .int v => some (int v)
  | .long v => some (long v)
  | .float bits => some (float bits)
  | .double bits => some (double bits)
  | _ => none

/-- The literal that pushes the number. -/
def literal : Value → Literal
  | int v => .int v
  | long v => .long v
  | float bits => .float bits
  | double bits => .double bits

/-- The kind of number. -/
def kind : Value → NumKind
  | int _ => .int
  | long _ => .long
  | float _ => .float
  | double _ => .double

/-- The number as it appears in messages. -/
def shown : Value → String
  | int v => "Int(" ++ toString v.toInt ++ ")"
  | long v => "Long(" ++ toString v.toInt ++ ")"
  | float bits => "Float(" ++ Decimal.text .single bits.toNat ++ ")"
  | double bits => "Double(" ++ Decimal.text .double bits.toNat ++ ")"

end Value

/-- Why an operation has no value. -/
inductive EvalError where
  | divisionByZero
  /-- The operands are of different kinds, or of a kind the operator never takes. -/
  | operands (left : Value) (op : MathOp) (right : Value)
  /-- The operator is not defined on numbers of this kind. -/
  | operator (op : MathOp) (kind : NumKind)
  /-- The operator takes another number of operands. -/
  | arity (op : MathOp)
deriving DecidableEq, Repr, Inhabited

namespace EvalError

/-- The cause in words. -/
def message : EvalError → String
  | divisionByZero => "integer division by zero"
  | operands left op right =>
    "operand types do not match the operator: " ++ left.shown ++ " " ++ op.name ++ " " ++ right.shown
  | operator op kind => "operand types do not match the operator: " ++ op.name ++ " on " ++ kind.name
  | arity op => "operator " ++ op.name ++ " cannot be evaluated statically"

end EvalError

namespace Evaluation

/-- Shifts an `int`, by the distance modulo 32. -/
def shiftInt (op : MathOp) (v n : Int32) : Int32 :=
  match op with
  | .shl => v <<< n
  | .ushr => (v.toUInt32 >>> n.toUInt32).toInt32
  | _ => v >>> n

/-- Shifts a `long`, by the distance modulo 64. -/
def shiftLong (op : MathOp) (v : Int64) (n : Int32) : Int64 :=
  match op with
  | .shl => v <<< n.toInt64
  | .ushr => (v.toUInt64 >>> n.toInt64.toUInt64).toInt64
  | _ => v >>> n.toInt64

/-- Two `int`s, not shifted. Quotients are cut off toward zero. -/
def onInts (op : MathOp) (l r : Int32) : Except EvalError Int32 :=
  match op with
  | .add => .ok (l + r)
  | .sub => .ok (l - r)
  | .mul => .ok (l * r)
  | .div => if r = 0 then .error .divisionByZero else .ok (l / r)
  | .rem => if r = 0 then .error .divisionByZero else .ok (l % r)
  | .and => .ok (l &&& r)
  | .or => .ok (l ||| r)
  | .xor => .ok (l ^^^ r)
  | _ => .error (.arity op)

/-- Two `long`s, not shifted. -/
def onLongs (op : MathOp) (l r : Int64) : Except EvalError Int64 :=
  match op with
  | .add => .ok (l + r)
  | .sub => .ok (l - r)
  | .mul => .ok (l * r)
  | .div => if r = 0 then .error .divisionByZero else .ok (l / r)
  | .rem => if r = 0 then .error .divisionByZero else .ok (l % r)
  | .and => .ok (l &&& r)
  | .or => .ok (l ||| r)
  | .xor => .ok (l ^^^ r)
  | _ => .error (.arity op)

/-- Two floating-point numbers of one format. -/
def onFloats (f : BinaryFormat) (kind : NumKind) (op : MathOp) (l r : Nat) : Except EvalError Nat :=
  match op with
  | .add => .ok (f.add l r)
  | .sub => .ok (f.sub l r)
  | .mul => .ok (f.mul l r)
  | .div => .ok (f.div l r)
  | .rem => .ok (f.rem l r)
  | _ => .error (.operator op kind)

/-- The value of `l op r`, where `l` was pushed first. -/
def binary (op : MathOp) (l r : Value) : Except EvalError Value :=
  if op.isShift then
    match l, r with
    | .int v, .int n => .ok (.int (shiftInt op v n))
    | .long v, .int n => .ok (.long (shiftLong op v n))
    | _, _ => .error (.operands l op r)
  else
    match l, r with
    | .int a, .int b => (onInts op a b).map .int
    | .long a, .long b => (onLongs op a b).map .long
    | .float a, .float b =>
      (onFloats .single .float op a.toNat b.toNat).map fun n => .float (UInt32.ofNat n)
    | .double a, .double b =>
      (onFloats .double .double op a.toNat b.toNat).map fun n => .double (UInt64.ofNat n)
    | _, _ => .error (.operands l op r)

/-- The value of `op v`. -/
def unary (op : MathOp) (v : Value) : Except EvalError Value :=
  if op = .neg then
    match v with
    | .int v => .ok (.int (-v))
    | .long v => .ok (.long (-v))
    | .float bits => .ok (.float (UInt32.ofNat (BinaryFormat.single.negate bits.toNat)))
    | .double bits => .ok (.double (UInt64.ofNat (BinaryFormat.double.negate bits.toNat)))
  else .error (.arity op)

/-- How two `int`s compare under a test. -/
def compareInts (cond : Condition) (l r : Int32) : Option Bool :=
  match cond with
  | .eq | .intEq => some (l == r)
  | .ne | .intNe => some (l != r)
  | .lt | .intLt => some (l < r)
  | .ge | .intGe => some (l ≥ r)
  | .gt | .intGt => some (l > r)
  | .le | .intLe => some (l ≤ r)
  | _ => none

/-- Whether a literal is `null`, if it is a reference of which that is known. -/
def nullness : Literal → Option Bool
  | .null => some true
  | .text _ | .type _ => some false
  | _ => none

/-- Decides a conditional jump. `none` if the operands do not decide it: two strings may or may not
be one object. -/
def condition (cond : Condition) (operands : List Literal) : Option Bool :=
  match cond, operands with
  | .eq, [.int v] | .ne, [.int v] | .lt, [.int v] | .ge, [.int v] | .gt, [.int v] | .le, [.int v] =>
    compareInts cond v 0
  | .intEq, [.int l, .int r] | .intNe, [.int l, .int r] | .intLt, [.int l, .int r]
  | .intGe, [.int l, .int r] | .intGt, [.int l, .int r] | .intLe, [.int l, .int r] =>
    compareInts cond l r
  | .isNull, [v] => nullness v
  | .nonNull, [v] => (nullness v).map (!·)
  | .refEq, [l, r] | .refNe, [l, r] =>
    match nullness l, nullness r with
    | some a, some b => if a || b then some ((a && b) == (cond == .refEq)) else none
    | _, _ => none
  | _, _ => none

end Evaluation

end Untangle
