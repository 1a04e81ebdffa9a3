import Untangle.Code.FlowGraph

/-!
# Exceptions that only move control

A protected range can be nothing but a detour. Two kinds are undone:

* a *redirection*: a short sequence that always throws, and a handler that drops the exception and
  goes on somewhere else. Every way into the range is sent straight to where the handler goes on.
* a range *without effect*: it protects nothing, or it always throws into a handler that does not
  throw again, or its handler ignores what it catches.

Any other range is left alone. Local slots are numbered up to 65535, and the slot after a `long` or
`double` is computed: a read of slot 65535 as one of these is an error. So is a redirection that needs a
new label when there is none.
-/

namespace Untangle

namespace ExceptionFlow

/-- The longest protected sequence that is looked at. -/
def shortRange : Nat := 10

/-- Can be part of making an exception. -/
def buildsException : Instr → Bool
  | .push _ | .load .. | .raise | .typed .new _ => true
  | .stack .dup | .stack .dupX1 | .stack .swap => true
  | .invoke .special member _ => member.name == "<init>"
  | _ => false

/-- Runs straight through and ends in a throw. -/
def alwaysThrows (nodes : List Node) : Bool :=
  match nodes.reverse with
  | [] => false
  | last :: rest =>
    last.instr == .raise && rest.all fun n => n.instr.fallsThrough && !n.instr.isJump

/-- Some instruction reads a local slot. -/
def slotIsRead (slot : UInt16) : List Instr → Except Error Bool
  | [] => .ok false
  | i :: rest =>
    match i with
    | .load kind s =>
      if s = slot then .ok true
      else if kind.slots = 2 then
        if s = 65535 then .error .slotOverflow
        else if s + 1 = slot then .ok true
        else slotIsRead slot rest
      else slotIsRead slot rest
    | .increment s _ | .leaveSub s => if s = slot then .ok true else slotIsRead slot rest
    | _ => slotIsRead slot rest

/-- The handler's first instruction, if it throws away what was caught: a pop, or a store into a
slot that nothing reads. -/
def discard? (b : Body) (handler : Label) : Except Error (Option Node) := do
  match b.code.realAt? handler with
  | none => return none
  | some n =>
    match n.content with
    | some (.stack .pop) => return some n
    | some (.store .ref slot) => return if ← slotIsRead slot b.code.instrs then none else some n
    | _ => return none

/-- Whether a handler that has come to an instruction throws again; `none` if that is still open.
Whatever branches is taken to throw. -/
def rethrowsAt (n : Node) : Option Bool :=
  match n.content with
  | none | some .raise => some true
  | some (.leave _) | some (.jump _) => some false
  | some i => if i.isJump || !i.fallsThrough then some true else none

/-- Whether a handler may throw again within its first 65 instructions, or is longer than that. -/
def rethrows (b : Body) (handler : Label) : Bool :=
  let reals := (b.code.fromLabel handler).filter Node.isReal
  ((reals.take 65).findSome? rethrowsAt).getD true

/-- The labels between the start of a range and its first instruction. -/
def entryLabels (b : Body) (start : Label) : List Label :=
  ((b.code.fromLabel start).takeWhile fun n => n.live && !n.isReal).filterMap (·.instr.label?)

/-- An earlier range covers the node and would see its exception first. -/
def coveredEarlier (b : Body) (index : Nat) (n : Node) : Bool :=
  (b.ranges.take index).any fun r => (b.realBetween r.start r.stop).any (·.id == n.id)

/-- The handler catches what the sequence throws. What was not made right there may be anything, and
only a range that catches everything is sure to catch it. -/
def catches (r : Range) (nodes : List Node) : Bool :=
  match r.catchType with
  | none => true
  | some caught =>
    caught == "java/lang/Throwable" ||
      match nodes.head?.map Node.instr with
      | some (.typed .new name) => caught == name
      | _ => false

/-- A jump leads into the middle of the sequence between two positions. -/
def jumpsInside (x : FlowIndex) (first last : Nat) : Bool :=
  x.labels.any fun (l, p) => first < p && p < last && x.isJumpTarget l

/-- Where control goes on after a handler dropped its exception at `discard`: the target of the jump
there, or the next instruction, by number. `none` if that is inside the range. -/
def continuation? (b : Body) (x : FlowIndex) (inside : Nat → Bool) (discard : Node) : Option (Label ⊕ Nat) := do
  let next ← b.code.nextReal? discard.id
  match ← b.code.get? next with
  | .jump target => if inside (← x.labelPosition? target) then none else some (.inl target)
  | _ => if inside (← x.position? next) then none else some (.inr next)

/-- The label of where control goes on, if need be a new one before the instruction there. -/
def labelOf (code : Listing) : Label ⊕ Nat → Except Error (Label × Listing)
  | .inl target => return (target, code)
  | .inr next => do
    let (l, code) ← code.newLabel
    return (l, (code.insertBefore next (.label l)).2)

/-- Sends every way into a range to another label: the jumps to its start, and a jump in front of it
if control falls into it. -/
def bypass (code : Listing) (entries : List Label) (start target : Label) : Listing :=
  let (_, code) := code.redirect fun l => if entries.contains l then target else l
  match code.labelPlace? start with
  | none => code
  | some p =>
    let fallsIn :=
      match p.before.find? Node.isReal with
      | some n => n.content.any Instruction.fallsThrough
      | none => true
    if fallsIn then (code.insertBefore p.node.id (.jump target)).2 else code

/-- The range is short, always throws what its handler catches, and does nothing else. -/
def isThrowSequence (b : Body) (index : Nat) (r : Range) (nodes : List Node) : Bool :=
  nodes.length ≤ shortRange && alwaysThrows nodes && catches r nodes &&
    nodes.all (fun n => buildsException n.instr) &&
    nodes.getLast?.all fun last => !coveredEarlier b index last

/-- Range `index` and where control goes on instead, if the range is a redirection. -/
def redirection? (b : Body) (index : Nat) : Except Error (Option (Range × (Label ⊕ Nat))) := do
  let some r := b.ranges[index]? | return none
  let nodes := b.realBetween r.start r.stop
  let x := FlowIndex.of b
  unless isThrowSequence b index r nodes do return none
  let some first := nodes.head?.bind fun n => x.position? n.id | return none
  let some last := nodes.getLast?.bind fun n => x.position? n.id | return none
  if jumpsInside x first last then return none
  let some discard ← discard? b r.handler | return none
  let (some start, some stop) := (x.labelPosition? r.start, x.labelPosition? r.stop) | return none
  let inside (p : Nat) : Bool := start ≤ p && p < stop
  if (x.position? discard.id).all inside then return none
  return (continuation? b x inside discard).map (r, ·)

/-- Undoes range `index` if it is a redirection. -/
def restore? (b : Body) (index : Nat) : Except Error (Option Body) := do
  let some (r, next) ← redirection? b index | return none
  let (target, code) ← labelOf b.code next
  let code := bypass code (entryLabels { b with code } r.start) r.start target
  return some ({ b with code }.removeRange index)

/-- Undoes range `index` if it has no effect. -/
def dropPure? (b : Body) (index : Nat) : Except Error (Option Body) := do
  let some r := b.ranges[index]? | return none
  let nodes := b.realBetween r.start r.stop
  if nodes.all (·.instr == .plain Opcode.nop) then return some (b.removeRange index)
  if nodes.length > shortRange then return none
  if alwaysThrows nodes then
    let some last := nodes.getLast? | return none
    if catches r nodes && !coveredEarlier b index last && !rethrows b r.handler then
      let (_, code) := b.code.replace last.id (.jump r.handler)
      return some ({ b with code }.removeRange index)
    else return none
  match ← discard? b r.handler with
  | some _ => return some (b.removeRange index)
  | none => return none

/-- Tries to undo every range from `index` on, and counts those undone. One step looks at one range. -/
def each (undo? : Body → Nat → Except Error (Option Body)) :
    Nat → Nat → Nat → Body → Except Error (Nat × Body)
  | 0, _, changes, b => .ok (changes, b)
  | steps + 1, index, changes, b => do
    match ← undo? b index with
    | some b => each undo? steps index (changes + 1) b
    | none => each undo? steps (index + 1) changes b

end ExceptionFlow

namespace Body

open ExceptionFlow in
/-- Undoes redirections, then ranges without effect, and takes out the code that died with them. -/
def restoreExceptionFlow (b : Body) : Except Error (Nat × Body) := do
  let (restored, b) ← each restore? b.ranges.length 0 0 b
  let (dropped, b) ← each dropPure? b.ranges.length 0 0 b
  if restored + dropped = 0 then return (0, b)
  let (dead, b) := b.removeDeadCode
  return (restored + dropped + dead, b)

end Body

end Untangle
