import Untangle.Proofs.Code.Listing
import Untangle.Proofs.Machine.Arithmetic

/-!
# A machine that runs method bodies

The machine has a stack, and locals and a heap of which nothing is known. It computes with literals,
arithmetic, pops, tests, switches and jumps itself. What any other instruction does is up to the
`World`: an arbitrary function of the instruction and of all the machine holds, which may go on, go to
a target of the instruction, go back behind a subroutine call, throw, or leave the method.

A run is observed through the instructions that are up to the world: `Event` records each of them with
the stack, the locals, the heap and the exception ranges around it. Literals, arithmetic, jumps, labels
and lines leave no trace.

`World.run` follows a body through a given number of transfers of control. Between two transfers the
machine only moves forward, so a run that is still going after every number of transfers is one that
never ends. A run goes `wrong` where an operand is missing or of a kind that the instruction does not
take, and is `lost` where there is no instruction to go on with.
-/

namespace Untangle.Machine

/-! ### What the machine holds -/

/-- A value on the stack. -/
inductive Item where
  | number (value : Value)
  | null
  | object (reference : Nat)
  /-- Where a subroutine goes back to: behind the node that called it. -/
  | address (caller : Nat)
deriving DecidableEq, Repr, Inhabited

/-- Stack slots the value takes. -/
def Item.slots : Item → Nat
  | number (.long _) | number (.double _) => 2
  | _ => 1

/-- Whether a reference is `null`; `none` for what is no reference. -/
def Item.isNull? : Item → Option Bool
  | null => some true
  | object _ => some false
  | _ => none

variable {L H : Type}

/-- The state of the machine, but for the place in the code. The top of the stack comes first. -/
structure Frame (L H : Type) where
  stack : List Item
  locals : L
  heap : H
deriving DecidableEq, Repr, Inhabited

/-- What an instruction that is up to the world does. -/
inductive Effect (L H : Type) where
  | next (f : Frame L H)
  /-- Goes to one of its targets, by number. -/
  | jumps (target : Nat) (f : Frame L H)
  /-- Goes back behind the node that called a subroutine. -/
  | resumes (caller : Nat) (f : Frame L H)
  | throws (exception : Nat) (f : Frame L H)
  | leaves (f : Frame L H)
deriving DecidableEq, Repr, Inhabited

/-- All that the code itself does not say. -/
structure World (L H : Type) where
  /-- The object that a string literal stands for. -/
  text : Utf16 → Nat
  /-- The object that a class literal stands for. -/
  type : String → Nat
  /-- The object that a method type stands for. -/
  methodType : String → Nat
  /-- What another loadable constant stands for. -/
  pooled : UInt16 → Bool → Item
  pooled_slots : ∀ index wide, (pooled index wide).slots = if wide then 2 else 1
  /-- What any other instruction does. -/
  act : Node → Frame L H → Effect L H
  /-- The exception for an integer that is divided by zero, and the heap with it. -/
  divisionByZero : H → Nat × H
  /-- Whether an exception is of the class that a range catches. -/
  catches : Nat → Option String → H → Bool

/-- The value that a literal pushes. -/
def World.value (w : World L H) : Literal → Item
  | .int v => .number (.int v)
  | .long v => .number (.long v)
  | .float bits => .number (.float bits)
  | .double bits => .number (.double bits)
  | .text s => .object (w.text s)
  | .null => .null
  | .type name => .object (w.type name)
  | .methodType descriptor => .object (w.methodType descriptor)
  | .pooled index wide => w.pooled index wide

/-- A literal takes as many slots as the value it pushes. -/
theorem World.slots_value (w : World L H) (v : Literal) : (w.value v).slots = v.slots := by
  cases v with
  | pooled _ wide => cases wide <;> exact w.pooled_slots ..
  | _ => rfl

/-! ### What the machine does itself -/

/-- Arithmetic on the top of the stack. -/
def math (kind : NumKind) (op : MathOp) (stack : List Item) : Except Fault (List Item) :=
  if op.isUnary then
    match stack with
    | .number v :: s => (negate kind v).map fun u => .number u :: s
    | _ => .error .wrong
  else
    match stack with
    | .number r :: .number l :: s => (binary kind op l r).map fun u => .number u :: s
    | _ => .error .wrong

/-- Pops one value of one slot. -/
def pop : List Item → Option (List Item)
  | x :: s => if x.slots = 1 then some s else none
  | [] => none

/-- Pops one value of two slots or two values of one. -/
def pop2 : List Item → Option (List Item)
  | x :: s => if x.slots = 2 then some s else pop s
  | [] => none

/-- How two integers compare under a test; `none` if the test is on references. -/
def compares : Condition → Int → Int → Option Bool
  | .eq, a, b | .intEq, a, b => some (a = b)
  | .ne, a, b | .intNe, a, b => some (a ≠ b)
  | .lt, a, b | .intLt, a, b => some (a < b)
  | .ge, a, b | .intGe, a, b => some (a ≥ b)
  | .gt, a, b | .intGt, a, b => some (a > b)
  | .le, a, b | .intLe, a, b => some (a ≤ b)
  | _, _, _ => none

/-- Pops the operands of a test, the one pushed last first, and says whether it holds. -/
def test (cond : Condition) (stack : List Item) : Option (Bool × List Item) :=
  match cond, stack with
  | .isNull, x :: s => x.isNull?.map fun b => (b, s)
  | .nonNull, x :: s => x.isNull?.map fun b => (!b, s)
  | .refEq, y :: x :: s => if x.isNull?.isSome ∧ y.isNull?.isSome then some (x = y, s) else none
  | .refNe, y :: x :: s => if x.isNull?.isSome ∧ y.isNull?.isSome then some (x ≠ y, s) else none
  | cond, stack =>
    if cond.operandCount = 2 then
      match stack with
      | .number (.int b) :: .number (.int a) :: s => (compares cond a.toInt b.toInt).map fun c => (c, s)
      | _ => none
    else
      match stack with
      | .number (.int a) :: s => (compares cond a.toInt 0).map fun c => (c, s)
      | _ => none

/-- Where a switch goes for the number it is given. -/
def chosen? (selector : Int32) : Instr → Option Label
  | .tableSwitch low high otherwise targets =>
    if low.toInt ≤ selector.toInt ∧ selector.toInt ≤ high.toInt then
      targets[(selector.toInt - low.toInt).toNat]?
    else some otherwise
  | .lookupSwitch otherwise pairs =>
    match pairs.find? (·.1 == selector) with
    | some (_, target) => some target
    | none => some otherwise
  | _ => none

/-! ### One instruction -/

/-- A place that control is sent to. -/
inductive Dest where
  | start
  | label (name : Label)
  /-- Behind the node that called a subroutine. -/
  | behind (caller : Nat)
deriving DecidableEq, Repr, Inhabited

/-- How a run stands when it is no longer followed. -/
inductive Outcome (L H : Type) where
  | returned (f : Frame L H)
  /-- No range around the instruction catches the exception. -/
  | threw (exception : Nat) (f : Frame L H)
  | wrong
  | lost
  | running
deriving DecidableEq, Repr, Inhabited

/-- What one instruction does. -/
inductive Move (L H : Type) where
  /-- Goes on with what follows. -/
  | on (f : Frame L H)
  | goes (d : Dest) (f : Frame L H)
  | throws (exception : Nat) (f : Frame L H)
  | stops (o : Outcome L H)
deriving DecidableEq, Repr, Inhabited

/-- What the instruction does is up to the world. -/
def isObserved : Instr → Bool
  | .label _ | .line _ | .push _ | .math .. | .stack .pop | .stack .pop2 | .jump _ | .branch ..
  | .tableSwitch .. | .lookupSwitch .. => false
  | _ => true

namespace World

variable (w : World L H)

/-- What an instruction does that is up to the world. -/
def perform (n : Node) (f : Frame L H) : Move L H :=
  match w.act n f with
  | .next f => .on f
  | .jumps k f =>
    match n.instr.targets[k]? with
    | some t => .goes (.label t) f
    | none => .stops .lost
  | .resumes caller f => .goes (.behind caller) f
  | .throws e f => .throws e f
  | .leaves f => .stops (.returned f)

/-- What a switch does. -/
def switch (i : Instr) (f : Frame L H) : Move L H :=
  match f.stack with
  | .number (.int v) :: s =>
    match chosen? v i with
    | some t => .goes (.label t) { f with stack := s }
    | none => .stops .wrong
  | _ => .stops .wrong

/-- What a node does. -/
def move (n : Node) (f : Frame L H) : Move L H :=
  match n.instr with
  | .label _ | .line _ => .on f
  | .push v => .on { f with stack := w.value v :: f.stack }
  | .math kind op =>
    match math kind op f.stack with
    | .ok s => .on { f with stack := s }
    | .error .divisionByZero => .throws (w.divisionByZero f.heap).1 { f with heap := (w.divisionByZero f.heap).2 }
    | .error .wrong => .stops .wrong
  | .stack .pop =>
    match pop f.stack with
    | some s => .on { f with stack := s }
    | none => .stops .wrong
  | .stack .pop2 =>
    match pop2 f.stack with
    | some s => .on { f with stack := s }
    | none => .stops .wrong
  | .jump t => .goes (.label t) f
  | .branch cond t =>
    match test cond f.stack with
    | some (true, s) => .goes (.label t) { f with stack := s }
    | some (false, s) => .on { f with stack := s }
    | none => .stops .wrong
  | .tableSwitch low high otherwise targets => switch (.tableSwitch low high otherwise targets) f
  | .lookupSwitch otherwise pairs => switch (.lookupSwitch otherwise pairs) f
  | _ => w.perform n f

end World

/-! ### Whole runs -/

/-- The ranges around an instruction, of which `rest` is what follows it: their end is still to come,
and their start is not. -/
def covering (ranges : List Range) (rest : List Node) : List Range :=
  ranges.filter fun r => r.stop ∈ labelsOf rest ∧ r.start ∉ labelsOf rest

/-- An instruction that is up to the world, as it is about to be performed. -/
structure Event (L H : Type) where
  node : Node
  frame : Frame L H
  /-- The exception ranges around it. -/
  ranges : List Range
deriving DecidableEq, Repr, Inhabited

/-- What is seen of a run. -/
structure Run (L H : Type) where
  events : List (Event L H)
  outcome : Outcome L H
deriving DecidableEq, Repr, Inhabited

/-- A run that starts with these events. -/
def Run.after (events : List (Event L H)) (r : Run L H) : Run L H :=
  { r with events := events ++ r.events }

/-- What follows the first node that satisfies a test. -/
def behind? (p : Node → Bool) : List Node → Option (List Node)
  | [] => none
  | n :: rest => if p n then some rest else behind? p rest

/-- Calls a subroutine. -/
def isCall : Instr → Bool
  | .callSub _ => true
  | _ => false

/-- The nodes from a place on. -/
def resolve (ns : List Node) : Dest → Option (List Node)
  | .start => some ns
  | .label l => behind? (·.instr = .label l) ns
  | .behind caller => behind? (fun n => n.id = caller ∧ isCall n.instr) ns

namespace World

variable (w : World L H)

/-- What is noted of a node before it does something. -/
def noted (ranges : List Range) (n : Node) (rest : List Node) (f : Frame L H) : List (Event L H) :=
  if isObserved n.instr then [⟨n, f, covering ranges rest⟩] else []

/-- How a run goes on after a move; `rest` follows in the code, and `on` runs it. -/
def proceed (ranges : List Range) (go : Dest → Frame L H → Run L H) (rest : List Node)
    (on : Frame L H → Run L H) : Move L H → Run L H
  | .on f => on f
  | .goes d f => go d f
  | .throws e f =>
    match (covering ranges rest).find? fun r => w.catches e r.catchType f.heap with
    | some r => go (.label r.handler) { f with stack := [.object e] }
    | none => ⟨[], .threw e f⟩
  | .stops o => ⟨[], o⟩

/-- Runs nodes up to the next transfer of control, and then goes on as `go` says. -/
def stretch (ranges : List Range) (go : Dest → Frame L H → Run L H) : List Node → Frame L H → Run L H
  | [], _ => ⟨[], .lost⟩
  | n :: rest, f =>
    .after (noted ranges n rest f) (w.proceed ranges go rest (stretch ranges go rest) (w.move n f))

/-- Runs nodes from a place on, for at most this many transfers of control. -/
def run (ranges : List Range) (ns : List Node) : Nat → Dest → Frame L H → Run L H
  | 0, _, _ => ⟨[], .running⟩
  | transfers + 1, d, f =>
    match resolve ns d with
    | some rest => w.stretch ranges (run ranges ns transfers) rest f
    | none => ⟨[], .lost⟩

/-- Runs a body from its first instruction. -/
def runBody (b : Body) (transfers : Nat) (f : Frame L H) : Run L H :=
  w.run b.ranges b.nodes transfers .start f

end World

end Untangle.Machine
