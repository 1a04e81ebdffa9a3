import Untangle.Initialization.StraightRun
import Untangle.Members.Junk

/-!
# Junk in static initializers

Three sequences that fill fields nobody reads: a picture in letters, a text from bytes by way of a
buffer, and a random number from a fixed seed. They go together with their fields, and an initializer
of which only a return is left goes as well.
-/

namespace Untangle

namespace StaticJunk

/-- Calls this method of this class. -/
def isCall (kind : InvokeKind) (owner name : String) : Instr → Bool
  | .invoke k m _ => k == kind && m.owner == owner && m.name == name
  | _ => false

/-- The field of the class that an instruction fills. -/
def filled? (owner : String) : Instr → Option Signature
  | .field .putStatic m => if m.owner = owner then some m.signature else none
  | _ => none

/-- The field that the first of some instructions fills, which is the `count`-th of a sequence. -/
def endsWith? (owner : String) (count : Nat) (is : List Instr) : Option (Nat × Signature) := do
  return (count, ← filled? owner (← is.head?))

/-- Passes over the lines of a picture being put into an array, and counts the instructions. -/
def skipLines (count : Nat) : List Instr → Nat × List Instr
  | .stack .dup :: .push (.int i) :: .push (.text line) :: .plain op :: rest =>
    if op = Opcode.aastore then skipLines (count + 4) rest
    else (count, .stack .dup :: .push (.int i) :: .push (.text line) :: .plain op :: rest)
  | is => (count, is)

/-- An array of texts put into the field for pictures. -/
def picture? (owner : String) (run : Nat → List Instr) : Option (Nat × Signature) :=
  match run 2 with
  | [.push (.int _), .typed .newArray "java/lang/String"] => do
    let (count, rest) := skipLines 2 ((run StraightRun.longest).drop 2)
    let (count, field) ← endsWith? owner (count + 1) rest
    if field = ⟨JunkMembers.pictureField, "[Ljava/lang/String;"⟩ then some (count, field) else none
  | _ => none

/-- The bytes of an own method, read as characters and put into a field. -/
def bufferedText? (owner : String) (run : Nat → List Instr) : Option (Nat × Signature) :=
  match run 5 with
  | [.invoke .static provider _, wrap, asChars, toText, store] =>
    if provider.owner = owner ∧ provider.descriptor = "()[B" ∧
        isCall .static "java/nio/ByteBuffer" "wrap" wrap ∧
        isCall .virtual "java/nio/ByteBuffer" "asCharBuffer" asChars ∧
        isCall .virtual "java/nio/CharBuffer" "toString" toText then
      endsWith? owner 5 [store]
    else none
  | _ => none

/-- A generator with a fixed seed, or the first number it gives, put into a field. -/
def seededRandom? (owner : String) (run : Nat → List Instr) : Option (Nat × Signature) :=
  let isNext := isCall .virtual "java/util/Random" "nextInt"
  match run 7 with
  | .typed .new "java/util/Random" :: .stack .dup :: .push (.long _) :: init :: rest =>
    if isCall .special "java/util/Random" "<init>" init then
      match rest with
      | .push (.int _) :: next :: rest => if isNext next then endsWith? owner 7 rest else none
      | next :: rest' => if isNext next then endsWith? owner 6 rest' else endsWith? owner 5 rest
      | [] => none
    else none
  | _ => none

/-- Finds a sequence that fills a field of which nobody reads. -/
def find? (owner : String) (read : List Signature) (referenced : Label → Bool) :
    StraightRun.Finder Signature := fun nodes => do
  let run := fun limit => StraightRun.instrs referenced limit nodes
  let found ← (picture? owner run).or ((bufferedText? owner run).or (seededRandom? owner run))
  if read.contains found.2 then none else some found

def isInitializer (m : Method) : Bool := m.name == "<clinit>" && m.descriptor == "()V"

/-- Nothing but returns is left. -/
def isEmpty (b : Body) : Bool :=
  b.ranges.isEmpty && (b.code.instrs.filter Instruction.isReal).all (· == .leave none)

/-- Puts a body into the first static initializer. -/
def withInitializer (b : Body) (methods : List Method) : List Method :=
  methods.modify (methods.findIdx isInitializer) fun m => { m with body := some b }

/-- Removes the junk, the fields that it filled, and the initializer if nothing is left of it. -/
def run (u : ClassUnit) : Nat × ClassUnit :=
  let read := u.readFields
  match (u.methods.find? isInitializer).bind Method.body with
  | none => (0, u)
  | some b =>
    let referenced := b.referencedSet
    let (emptied, b) := b.strip (find? u.name read referenced.contains)
    let u := { u with methods := withInitializer b u.methods }
    let (initializersGone, u) := if isEmpty b then u.removeMethods isInitializer else (0, u)
    let fields := u.referencedFields
    let (fieldsGone, u) := u.removeFields fun f =>
      emptied.contains f.signature && !fields.contains f.signature
    (emptied.length + initializersGone + fieldsGone, u)

end StaticJunk

namespace UnitPass

def staticInitializer : UnitPass := ofTotal "static-initializer" StaticJunk.run

end UnitPass

end Untangle
