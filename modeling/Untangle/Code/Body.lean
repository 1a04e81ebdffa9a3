import Std.Data.TreeSet.Basic
import Untangle.Code.Listing

/-!
# Method bodies

A listing together with the tables that refer into it by label: protected ranges and local
variables.
-/

namespace Untangle

/-- The code from `start` up to `stop` is protected by `handler`. -/
structure Range where
  start : Label
  stop : Label
  handler : Label
  /-- The class caught; everything if `none`. -/
  catchType : Option String
deriving DecidableEq, Repr, Inhabited

/-- The name and type of a local variable while control is between two labels. -/
structure Variable where
  name : String
  descriptor : String
  start : Label
  stop : Label
  index : UInt16
deriving DecidableEq, Repr, Inhabited

/-- The decoded body of a method. -/
structure Body where
  maxStack : UInt16
  maxLocals : UInt16
  code : Listing := {}
  ranges : List Range := []
  locals : List Variable := []
  /-- A range was removed or redirected. -/
  dirty : Bool := false
deriving DecidableEq, Repr, Inhabited

namespace Body

/-- Differs from what was decoded. -/
def isModified (b : Body) : Bool := b.dirty || b.code.modified

/-- The nodes in order. -/
def nodes (b : Body) : List Node := b.code.nodes

/-- The labels that some instruction, range or variable refers to, with repetitions. -/
def referenced (b : Body) : List Label :=
  b.nodes.flatMap (·.instr.targets) ++ b.ranges.flatMap (fun r => [r.start, r.stop, r.handler]) ++
    b.locals.flatMap (fun v => [v.start, v.stop])

/-- The same labels as a set. -/
def referencedSet (b : Body) : Std.TreeSet Label := Std.TreeSet.ofList b.referenced

/-- Renames the targets of jumps and switches and, if asked, handlers; counts what changed. -/
def redirect (b : Body) (f : Label → Label) (handlers : Bool) : Nat × Body :=
  let (inCode, code) := b.code.redirect f
  let b := { b with code }
  if handlers then
    let changed := inCode + b.ranges.countP fun r => f r.handler != r.handler
    if changed = 0 then (0, b)
    else
      (changed,
        { b with ranges := b.ranges.map fun r => { r with handler := f r.handler }, dirty := true })
  else (inCode, b)

/-- Takes out every label that nothing refers to, and counts them. -/
def pruneLabels (b : Body) : Nat × Body :=
  let referenced := b.referencedSet
  let (gone, code) := b.code.keep fun n => n.instr.label?.all referenced.contains
  (gone, { b with code })

/-- Removes a range by its number. -/
def removeRange (b : Body) (i : Nat) : Body := { b with ranges := b.ranges.eraseIdx i, dirty := true }

/-- The executing nodes up to the node `stop`, nothing if that node is not met; `done` holds those
already passed, last first. A removed node ends the walk. -/
def realUpTo (stop : Nat) (done : List Node) : List Node → List Node
  | [] => []
  | n :: rest =>
    if n.id = stop then done.reverse
    else if n.live then realUpTo stop (if n.isReal then n :: done else done) rest
    else []

/-- The executing nodes from one label up to another, nothing if they are missing or out of order. -/
def realBetween (b : Body) (start stop : Label) : List Node :=
  match b.code.labelNode? stop with
  | some stop => realUpTo stop [] (b.code.fromLabel start)
  | none => []

end Body

end Untangle
