import Untangle.Decryption.Routine
import Untangle.Members.GeneratedName
import Untangle.Simplification.Sweep
import Untangle.UnitPass

/-!
# Decrypting strings

Calls to a class's own decryption routines, with literals right before them, are replaced by the
strings they return. Routines that nothing calls any more go, and so do the generated methods that
provided their data.
-/

namespace Untangle

namespace Strings

/-- What is known about a class before its calls are looked at. -/
structure Known where
  unit : String
  tables : List (String × Table)
  providers : List (String × List UInt8)
  routines : List (Signature × Routine)
deriving Repr, Inhabited

/-- Looks a class over. -/
def Known.of (u : ClassUnit) : Known :=
  let tables := StaticData.tables u
  { unit := u.name
    tables
    providers := StaticData.providers u
    routines := u.methods.filterMap fun m => (Routine.of? u.name tables m).map (m.signature, ·) }

/-- The routine with this signature; of several the last. -/
def Known.routine? (k : Known) (s : Signature) : Option Routine := k.routines.reverse.lookup s

/-- The literal that an instruction pushes, arrays of bytes included. -/
def Known.argument? (k : Known) : Instr → Option Argument
  | .push (.int v) => some (.int v)
  | .push (.long v) => some (.long v)
  | .push (.text s) => some (.text s)
  | .invoke .static m _ =>
    if m.owner = k.unit ∧ m.descriptor = "()[B" then
      (StaticData.lookupLast m.name k.providers).map .bytes
    else none
  | .field .getStatic m =>
    if m.owner = k.unit ∧ m.descriptor = "[B" then
      match StaticData.lookupLast m.name k.tables with
      | some (.bytes data) => some (.bytes data)
      | _ => none
    else none
  | _ => none

/-- The arguments that instructions push for parameters. -/
def Known.arguments? (k : Known) (params : List FieldType) (is : List Instr) : Option (List Argument) :=
  (is.zip params).mapM fun (i, param) => do
    let a ← k.argument? i
    if param.accepts a then some a else none

/-- The call that a routine is asked to make. -/
def Known.call (k : Known) (s : Signature) (r : Routine) (arguments : List Argument) : Call :=
  { arguments, className := k.unit, routine := s.name
    tables := r.tables.filterMap fun t => StaticData.lookupLast t k.tables }

/-- What is carried along while the methods are gone through. -/
structure Progress where
  context : Context
  /-- The routines of which a call was replaced. -/
  used : List Signature := []
deriving Repr, Inhabited

/-- A call to a routine that can be made: the routine's signature, the arguments, and what was passed
without them. -/
def callAt? (k : Known) (referenced : Label → Bool) (passed : List Node) (n : Node) :
    Option (Signature × Call × List Node) := do
  match n.content with
  | some (.invoke .static m _) =>
    if m.owner = k.unit then
      let r ← k.routine? m.signature
      let (is, rest) ← Operand.take referenced r.params.length passed
      let arguments ← k.arguments? r.params is
      some (m.signature, k.call m.signature r arguments, rest)
    else none
  | _ => none

/-- Puts the string that a call returns in its place. -/
def rule (k : Known) (method : String) (referenced : Label → Bool) (p : Progress) (passed : List Node)
    (n : Node) : Progress × Option (List Node) :=
  match callAt? k referenced passed n with
  | none => (p, none)
  | some (s, call, rest) =>
    let key := CallKey.of k.unit s.name s.descriptor call.arguments
    let (outcome, cache) := p.context.cache.getOrCompute key fun _ => decrypt call
    match outcome with
    | none => ({ p with context := { p.context with cache } }, none)
    | some plain =>
      let entry := ⟨k.unit, method, s.name, plain.recipe, Text.escaped plain.text⟩
      ({ context := { cache, decrypted := p.context.decrypted ++ [entry] }, used := s :: p.used },
        some ({ n with content := some (.push (.text (Utf16.ofString plain.text))) } :: rest))

/-- Goes through the methods that are no routines themselves. -/
def decryptMethods (k : Known) (p : Progress) (changes : Nat) (done : List Method) :
    List Method → Progress × Nat × List Method
  | [] => (p, changes, done.reverse)
  | m :: rest =>
    match m.body, k.routine? m.signature with
    | some b, none =>
      let (p, n, b) := b.sweepWith (rule k m.name) p
      decryptMethods k p (changes + n) ({ m with body := some b } :: done) rest
    | _, _ => decryptMethods k p changes (m :: done) rest

/-- The own methods that are called from methods other than the routines whose calls were replaced. -/
def stillCalled (u : ClassUnit) (used : List Signature) : List Signature :=
  (u.methods.filter fun m => !used.contains m.signature).flatMap fun m =>
    m.instrs.flatMap (·.callsOf u.name)

/-- Decrypts the strings of a class. -/
def run (u : ClassUnit) (c : Context) : Nat × ClassUnit × Context :=
  let k := Known.of u
  if k.routines.isEmpty then (0, u, c)
  else
    let (p, changes, methods) := decryptMethods k ⟨c, []⟩ 0 [] u.methods
    let u := { u with methods }
    if changes = 0 then (0, u, p.context)
    else
      let called := stillCalled u p.used
      let (removed, u) := u.removeMethods fun m =>
        !called.contains m.signature &&
          (p.used.contains m.signature ||
            ((k.providers.lookup m.name).isSome && GeneratedName.isLowercaseRun 10 m.name))
      (changes + removed, u, p.context)

end Strings

namespace UnitPass

def stringDecryption : UnitPass := ⟨"string-decryption", fun u c => .ok (Strings.run u c)⟩

end UnitPass

end Untangle
