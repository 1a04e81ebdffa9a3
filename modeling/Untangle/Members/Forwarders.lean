import Untangle.Members.GeneratedName
import Untangle.Simplification.Sweep
import Untangle.UnitPass

/-!
# Methods that only forward

A private method may do nothing but pass its arguments on to another method of the class. Calls to it
are sent to that method directly; once nothing calls the forwarder it goes, and so do the methods and
fields with generated names that only hold a constant.

A forwarder to a forwarder waits: it becomes a plain forwarder once its own call was redirected.

Local slots are numbered up to 65535. A method that has more slots of arguments than that is an
error.
-/

namespace Untangle

/-- A method that only calls another one of the same class. -/
structure Forwarder where
  source : Signature
  target : Signature
  /-- The call to the target. -/
  call : Instr
deriving Repr, Inhabited

namespace Forwarder

/-- The loads that push all arguments, from a slot on. -/
def loads (slot : Nat) : List FieldType → List Instr
  | [] => []
  | param :: rest => .load param.valueKind (UInt16.ofNat slot) :: loads (slot + param.slots) rest

/-- The loads that push what a method was called with. -/
def expectedLoads (isStatic : Bool) (d : MethodDescriptor) : Except Error (List Instr) :=
  let first := if isStatic then 0 else 1
  if first + d.argSlots ≤ 65535 then
    .ok ((if isStatic then [] else [.load .ref 0]) ++ loads first d.params)
  else .error .slotOverflow

/-- A call to another method of the class with the same descriptor, whose result is returned. -/
def forwards? (owner : String) (m : Method) (d : MethodDescriptor) : List Instr → Option Forwarder
  | [.invoke kind target isInterface, .leave result] =>
    if target.owner = owner ∧ target.descriptor = m.descriptor ∧ target.name ≠ m.name ∧
        (kind == .static) = m.isStatic ∧ result = d.result.map FieldType.valueKind then
      some ⟨m.signature, target.signature, .invoke kind target isInterface⟩
    else none
  | _ => none

/-- The forwarder that a method is. -/
def of? (owner : String) (m : Method) : Except Error (Option Forwarder) := do
  let some b := m.body | return none
  let some d := (MethodDescriptor.parse m.descriptor).toOption | return none
  unless m.access.isPrivate && m.name.toList.head? != some '<' && b.ranges.isEmpty do return none
  let loads ← expectedLoads m.isStatic d
  let reals := m.realInstrs
  return if reals.take loads.length = loads then forwards? owner m d (reals.drop loads.length) else none

/-- Adds a forwarder in the place of one with the same signature. -/
def add (fs : List Forwarder) (f : Forwarder) : List Forwarder :=
  f :: fs.filter fun g => g.source != f.source

/-- The forwarders among some methods. -/
def collect (owner : String) (fs : List Forwarder) : List Method → Except Error (List Forwarder)
  | [] => .ok fs
  | m :: rest => do
    match ← of? owner m with
    | some f => collect owner (add fs f) rest
    | none => collect owner fs rest

/-- The forwarder with this signature. -/
def find? (fs : List Forwarder) (s : Signature) : Option Forwarder := fs.find? (·.source == s)

/-- The forwarders that do not call another forwarder. -/
def direct (fs : List Forwarder) : List Forwarder := fs.filter fun f => (find? fs f.target).isNone

/-- A call to a forwarder becomes the call that it makes. -/
def rule (owner : String) (fs : List Forwarder) : Rule := fun passed n =>
  match n.content with
  | some (.invoke _ m _) =>
    if m.owner = owner then
      (find? fs m.signature).map fun f => { n with content := some f.call } :: passed
    else none
  | _ => none

/-- Redirects the calls in the methods that are no forwarders themselves. -/
def redirectCalls (owner : String) (fs : List Forwarder) (changes : Nat) (done : List Method) :
    List Method → Nat × List Method
  | [] => (changes, done.reverse)
  | m :: rest =>
    match m.body, find? fs m.signature with
    | some b, none =>
      let (n, b) := b.sweep fun _ => rule owner fs
      redirectCalls owner fs (changes + n) ({ m with body := some b } :: done) rest
    | _, _ => redirectCalls owner fs changes (m :: done) rest

/-! ### Constants -/

/-- A private method with a generated name that returns nothing or a literal. -/
def isConstantMethod (m : Method) : Bool :=
  m.access.isPrivate && GeneratedName.isMixed m.name &&
    match m.realInstrs with
    | [.leave none] => true
    | [.push (.pooled ..), _] => false
    | [.push _, .leave (some _)] => true
    | _ => false

/-- A private constant with a generated name. -/
def isConstantField (f : Field) : Bool :=
  f.access.isPrivate && f.access.isStatic && f.access.isFinal && GeneratedName.isMixed f.name

/-- Redirects calls, then removes forwarders and constants that the code does not name. -/
def run (u : ClassUnit) : Except Error (Nat × ClassUnit) := do
  let fs := direct (← collect u.name [] u.methods)
  let (changes, methods) := redirectCalls u.name fs 0 [] u.methods
  let u := { u with methods }
  let usedFields := u.referencedFields
  let usedMethods := u.referencedMethods
  let (methodsGone, u) := u.removeMethods fun m =>
    !usedMethods.contains m.signature && ((find? fs m.signature).isSome || isConstantMethod m)
  let (fieldsGone, u) := u.removeFields fun f => isConstantField f && !usedFields.contains f.signature
  return (changes + methodsGone + fieldsGone, u)

end Forwarder

namespace UnitPass

def proxyMembers : UnitPass :=
  ⟨"proxy-members", fun u c => do
    let (changes, u) ← Forwarder.run u
    return (changes, u, c)⟩

end UnitPass

end Untangle
