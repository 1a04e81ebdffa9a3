import Untangle.Code.Body

/-!
# Edits of a body

What can be done to the listing of a body, as values, each with the answer it gives. A label stands in a listing once.
The number of the label that comes next has 32 bits: an edit that would leave no number for it stops everything, so the
last number that 32 bits have is never that of a label.
-/

namespace Untangle

/-- An edit of a body. -/
inductive Edit where
  /-- Adds an instruction at the end. -/
  | push (i : Instr)
  /-- Adds a new label at the end. -/
  | pushLabel
  /-- Gives out a label that stands nowhere yet. -/
  | newLabel
  /-- Inserts an instruction before a node. -/
  | insertBefore (id : Nat) (i : Instr)
  /-- Inserts an instruction after a node. -/
  | insertAfter (id : Nat) (i : Instr)
  /-- Removes a node that is no label. -/
  | remove (id : Nat)
  /-- Swaps the instruction of a node that is no label. -/
  | replace (id : Nat) (i : Instr)
  /-- Renames the targets of jumps and switches and, if asked, handlers. -/
  | redirect (f : Label → Label) (handlers : Bool)
  /-- Takes out every label that nothing refers to. -/
  | prune
  /-- Puts other tables in the place of those that are there. -/
  | tables (ranges : List Range) (locals : List Variable)

/-- What an edit gives back. -/
inductive Edit.Answer where
  /-- The node that was inserted. -/
  | node (id : Nat)
  /-- The label that was given out. -/
  | label (name : Label)
  /-- The instruction that was there. -/
  | instr (old : Option Instr)
  /-- How much has changed. -/
  | count (n : Nat)
  | done
deriving DecidableEq, Repr, Inhabited

/-- Carries out edits in order, given how to carry out one, with the answers to all of them. -/
def Edit.runAll {β : Type} (edit : β → Edit → Except Error (Answer × β)) (b : β) :
    List Edit → Except Error (List Answer × β)
  | [] => .ok ([], b)
  | e :: es => do
    let (answer, b) ← edit b e
    let (answers, b) ← runAll edit b es
    return (answer :: answers, b)

/-- What comes of placing an instruction, if it may be placed: a label must not stand in the listing already, and must
leave a number for the one that comes next. -/
def Listing.allow (l : Listing) (i : Instr) (placed : Nat × Listing) : Except Error (Nat × Listing) :=
  match i.label? with
  | none => .ok placed
  | some name =>
    if (l.labelNode? name).isSome then .error (.labelTwice name)
    else if max l.nextLabel (name + 1) ≤ 4294967295 then .ok placed
    else .error .labelOverflow

/-- Adds a new label at the end. -/
def Listing.pushLabel (l : Listing) : Except Error (Label × Listing) := do
  let (name, l) ← l.newLabel
  let (_, l) ← l.allow (.label name) (l.push (.label name))
  return (name, l)

namespace Body

/-- Carries out an edit. -/
def edit (b : Body) : Edit → Except Error (Edit.Answer × Body)
  | .push i => do
    let (id, code) ← b.code.allow i (b.code.push i)
    return (.node id, { b with code })
  | .pushLabel => do
    let (name, code) ← b.code.pushLabel
    return (.label name, { b with code })
  | .newLabel => do
    let (name, code) ← b.code.newLabel
    return (.label name, { b with code })
  | .insertBefore id i => do
    let (id, code) ← b.code.allow i (b.code.insertBefore id i)
    return (.node id, { b with code })
  | .insertAfter id i => do
    let (id, code) ← b.code.allow i (b.code.insertAfter id i)
    return (.node id, { b with code })
  | .remove id => let (old, code) := b.code.remove id; .ok (.instr old, { b with code })
  | .replace id i => let (old, code) := b.code.replace id i; .ok (.instr old, { b with code })
  | .redirect f handlers => let (n, b) := b.redirect f handlers; .ok (.count n, b)
  | .prune => let (n, b) := b.pruneLabels; .ok (.count n, b)
  | .tables ranges locals => .ok (.done, { b with ranges, locals })

/-- Carries out edits in order, with the answers to all of them. -/
def editAll : Body → List Edit → Except Error (List Edit.Answer × Body) := Edit.runAll edit

end Body

end Untangle
