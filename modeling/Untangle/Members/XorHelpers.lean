import Untangle.Simplification.Literals
import Untangle.UnitPass

/-!
# Exclusive or by call

Some classes hide an exclusive or in a static method of two `int`s. Calls to it on literals are
replaced by the result, and helpers that nothing calls any more go.
-/

namespace Untangle

namespace XorHelpers

def helperDescriptor : String := "(II)I"

/-- Returns the exclusive or of its two arguments. -/
def isHelper (m : Method) : Bool :=
  m.isStatic && m.descriptor == helperDescriptor &&
    match m.realInstrs with
    | [.load .int a, .load .int b, .math .int .xor, .leave (some .int)] =>
      (a, b) == (0, 1) || (a, b) == (1, 0)
    | _ => false

/-- A call to a helper on two literals becomes their exclusive or. -/
def rule (owner : String) (helpers : List String) (referenced : Label → Bool) : Rule := fun passed n =>
  match n.content with
  | some (.invoke .static m _) =>
    if m.owner = owner ∧ m.descriptor = helperDescriptor ∧ helpers.contains m.name then do
      match ← Literals.pair? referenced passed with
      | (right, .int r, left, .int l) =>
        some ({ n with content := some (.push (.int (l ^^^ r))) } :: (right.between ++ left.dropped))
      | _ => none
    else none
  | _ => none

/-- Goes through the methods. -/
def foldCalls (owner : String) (helpers : List String) (changes : Nat) (done : List Method) :
    List Method → Nat × List Method
  | [] => (changes, done.reverse)
  | m :: rest =>
    match m.body with
    | some b =>
      let (n, b) := b.sweep (rule owner helpers)
      foldCalls owner helpers (changes + n) ({ m with body := some b } :: done) rest
    | none => foldCalls owner helpers changes (m :: done) rest

/-- Replaces calls to helpers, and removes private helpers that nothing calls. -/
def run (u : ClassUnit) : Nat × ClassUnit :=
  let helpers := (u.methods.filter isHelper).map Method.name
  if helpers.isEmpty then (0, u)
  else
    match foldCalls u.name helpers 0 [] u.methods with
    | (0, methods) => (0, { u with methods })
    | (changes, methods) =>
      let u := { u with methods }
      let called := u.referencedMethods
      let (gone, u) := u.removeMethods fun m =>
        m.access.isPrivate && helpers.contains m.name && m.descriptor == helperDescriptor &&
          !called.contains m.signature
      (changes + gone, u)

end XorHelpers

namespace UnitPass

def xorHelpers : UnitPass := ofTotal "xor-helpers" XorHelpers.run

end UnitPass

end Untangle
