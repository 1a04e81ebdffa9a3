import Untangle.Evaluation
import Untangle.Simplification.Sweep

/-!
# Computing with literals

Four rules that do at once what the code would do with literals it has just pushed: arithmetic,
conditional jumps, switches, and throwing the literals away.
-/

namespace Untangle

namespace Literals

/-- The nearest two operands, if both are literals: the one pushed last, then the one before it. -/
def pair? (referenced : Label → Bool) (passed : List Node) :
    Option (Operand × Literal × Operand × Literal) := do
  let right ← Operand.find referenced passed
  let r ← right.instr.literal?
  let left ← Operand.find referenced right.before
  let l ← left.instr.literal?
  return (right, r, left, l)

/-- `push a; neg` becomes `push -a`, and two negations cancel out. -/
def negation (referenced : Label → Bool) (kind : NumKind) (passed : List Node) : Option (List Node) := do
  let operand ← Operand.find referenced passed
  match operand.instr with
  | .math k .neg => if k = kind then some operand.dropped else none
  | .push v =>
    let v ← Value.ofLiteral? v
    if v.kind = kind then
      match Evaluation.unary .neg v with
      | .ok result => some (operand.replaced (.push result.literal))
      | .error _ => none
    else none
  | _ => none

/-- `push a; push b; op` becomes `push (a op b)`. What has no value, such as a division by zero, is
left for the machine. -/
def arithmetic (referenced : Label → Bool) (kind : NumKind) (op : MathOp) (passed : List Node) :
    Option (List Node) := do
  let (right, r, left, l) ← pair? referenced passed
  let l ← Value.ofLiteral? l
  let r ← Value.ofLiteral? r
  if l.kind = kind then
    match Evaluation.binary op l r with
    | .ok result => some (right.between ++ left.replaced (.push result.literal))
    | .error _ => none
  else none

/-- Arithmetic on literals is done at once. -/
def foldRule (referenced : Label → Bool) : Rule := fun passed n =>
  match n.content with
  | some (.math kind op) =>
    if op.isUnary then negation referenced kind passed else arithmetic referenced kind op passed
  | _ => none

/-- The literals that a test pops, in the order they were pushed, and what was passed without them. -/
def tested? (referenced : Label → Bool) (cond : Condition) (passed : List Node) :
    Option (List Literal × List Node) :=
  if cond.operandCount = 2 then do
    let (right, r, left, l) ← pair? referenced passed
    return ([l, r], right.between ++ left.dropped)
  else do
    let operand ← Operand.find referenced passed
    return ([← operand.instr.literal?], operand.dropped)

/-- A conditional jump on literals becomes a jump or nothing. -/
def branchRule (referenced : Label → Bool) : Rule := fun passed n =>
  match n.content with
  | some (.branch cond target) => do
    let (operands, dropped) ← tested? referenced cond passed
    if ← Evaluation.condition cond operands then
      some ({ n with content := some (.jump target) } :: dropped)
    else some dropped
  | _ => none

/-- Where a switch goes for a selector. -/
def selected? (selector : Int32) : Instr → Option Label
  | .tableSwitch low high otherwise targets =>
    if selector < low ∨ selector > high then some otherwise
    else some (targets.getD (selector.toInt - low.toInt).toNat otherwise)
  | .lookupSwitch otherwise pairs => some ((pairs.lookup selector).getD otherwise)
  | _ => none

/-- A switch on a literal becomes a jump. -/
def switchRule (referenced : Label → Bool) : Rule := fun passed n =>
  match n.content with
  | some (.tableSwitch ..) | some (.lookupSwitch ..) => do
    let operand ← Operand.find referenced passed
    match operand.instr with
    | .push (.int selector) =>
      let target ← selected? selector n.instr
      some ({ n with content := some (.jump target) } :: operand.dropped)
    | _ => none
  | _ => none

/-- Takes one literal of `width` slots, or two single ones if `width` is 2, off what was passed. -/
def popped (referenced : Label → Bool) (width : Nat) (passed : List Node) : Option (List Node) := do
  let first ← Operand.find referenced passed
  let slots := (← first.instr.literal?).slots
  if slots = width then some first.dropped
  else if width = 2 ∧ slots = 1 then
    let second ← Operand.find referenced first.before
    if (← second.instr.literal?).slots = 1 then some (first.between ++ second.dropped) else none
  else none

/-- A literal that is popped right away was never needed. -/
def popRule (referenced : Label → Bool) : Rule := fun passed n =>
  match n.content with
  | some (.stack .pop) => popped referenced 1 passed
  | some (.stack .pop2) => popped referenced 2 passed
  | _ => none

end Literals

namespace Body

/-- Does arithmetic on literals. -/
def foldConstants (b : Body) : Nat × Body := b.sweep Literals.foldRule

/-- Decides conditional jumps on literals. -/
def decideBranches (b : Body) : Nat × Body := b.sweep Literals.branchRule

/-- Decides switches on literals. -/
def decideSwitches (b : Body) : Nat × Body := b.sweep Literals.switchRule

/-- Removes literals that are popped right away. -/
def removePops (b : Body) : Nat × Body := b.sweep Literals.popRule

end Body

end Untangle
