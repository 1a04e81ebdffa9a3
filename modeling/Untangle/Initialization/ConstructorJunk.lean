import Untangle.Initialization.StraightRun
import Untangle.UnitPass

/-!
# Junk in constructors

Exceptions that a constructor makes and drops at once, after the call to another constructor that
every constructor starts with. Making one of these has no effect that shows.
-/

namespace Untangle

namespace ConstructorJunk

/-- Exceptions whose making has no other effect. -/
def throwaways : List String :=
  ["java/lang/Throwable", "java/lang/Exception", "java/lang/RuntimeException"]

/-- Pushes a literal that is known. -/
def isKnownLiteral : Instr → Bool
  | .push (.pooled ..) => false
  | .push _ => true
  | _ => false

/-- The call that makes an exception from literals, and the pop that drops it. -/
def isMadeAndDropped (name : String) (literals : Nat) : List Instr → Bool
  | .invoke .special m _ :: .stack .pop :: _ =>
    m.owner == name && m.name == "<init>" &&
      (MethodDescriptor.parse m.descriptor).toOption.any (·.params.length == literals)
  | _ => false

/-- Finds an exception that is made from literals and dropped. -/
def find? (referenced : Label → Bool) : StraightRun.Finder Unit := fun nodes =>
  match StraightRun.instrs referenced 2 nodes with
  | [.typed .new name, .stack .dup] =>
    let arguments := (StraightRun.instrs referenced StraightRun.longest nodes).drop 2
    let literals := (arguments.takeWhile isKnownLiteral).length
    if throwaways.contains name && isMadeAndDropped name literals (arguments.drop literals) then
      some (literals + 4, ())
    else none
  | _ => none

/-- Calls a constructor of one of these classes. -/
def delegates (owners : List String) (n : Node) : Bool :=
  match n.content with
  | some (.invoke .special m _) => m.name == "<init>" && owners.contains m.owner
  | _ => false

/-- Takes the junk out of a constructor, and counts the finds. Nothing is looked at before the call to
another constructor. -/
def clean (owners : List String) (b : Body) : Nat × Body :=
  let referenced := b.referencedSet
  let start := b.nodes.takeWhile fun n => !delegates owners n
  match b.nodes.dropWhile fun n => !delegates owners n with
  | [] => (0, b)
  | call :: rest =>
    match StraightRun.strip (find? referenced.contains) 0 [] (call :: start.reverse) rest with
    | ([], _) => (0, b)
    | (finds, nodes) =>
      (finds.length, { b with code := { b.code.withNodes nodes with modified := true } })

/-- Goes through the methods. -/
def cleanMethods (owners : List String) (changes : Nat) (done : List Method) :
    List Method → Nat × List Method
  | [] => (changes, done.reverse)
  | m :: rest =>
    match m.body with
    | some b =>
      if m.name = "<init>" then
        let (n, b) := clean owners b
        cleanMethods owners (changes + n) ({ m with body := some b } :: done) rest
      else cleanMethods owners changes (m :: done) rest
    | none => cleanMethods owners changes (m :: done) rest

/-- Takes the junk out of the constructors of a class. -/
def run (u : ClassUnit) : Nat × ClassUnit :=
  let (changes, methods) := cleanMethods [u.superName.getD "", u.name] 0 [] u.methods
  (changes, { u with methods })

end ConstructorJunk

namespace UnitPass

def constructorJunk : UnitPass := ofTotal "constructor-junk" ConstructorJunk.run

end UnitPass

end Untangle
