import Untangle.ClassUnit
import Untangle.Decryption.Recipe

/-!
# Arrays filled with literals

Code that makes an array and stores literals into it, one group of four instructions each:
duplicate the array, push a place, push a value, store. Decryption routines get their data from such
arrays, either out of static fields or from methods that return a new array.
-/

namespace Untangle

namespace StaticData

/-- The codes of the primitive array types that matter here. -/
def charArray : UInt8 := 5

def byteArray : UInt8 := 8

/-- The longest array that is looked at. -/
def longest : Int32 := 0xffff

/-- The literals pushed into an array. -/
abbrev Cells := Array (Option Literal)

/-- Reads groups of `dup; push i; push v; store` and gives what is in the array then, together with
the nodes that follow. A group that is begun has to be completed, with a place inside the array. -/
def fill (store : UInt8) (cells : Cells) : List Node → Option (Cells × List Node)
  | d :: i :: v :: s :: rest =>
    if d.content = some (.stack .dup) then
      match i.content, v.content with
      | some (.push (.int place)), some (.push value) =>
        if s.content = some (.plain store) ∧ 0 ≤ place ∧ place.toInt < cells.size then
          fill store (cells.setIfInBounds place.toInt.toNat (some value)) rest
        else none
      | _, _ => none
    else some (cells, d :: i :: v :: s :: rest)
  | d :: rest => if d.content = some (.stack .dup) then none else some (cells, d :: rest)
  | [] => some (cells, [])

/-- Reads the array made at a place: its length is pushed right before, and groups follow. -/
def arrayAt (p : Place) (store : UInt8) : Option (Cells × List Node) := do
  match (← p.before.find? Node.isReal).content with
  | some (.push (.int length)) =>
    if 0 ≤ length ∧ length ≤ longest then
      fill store (Array.replicate length.toInt.toNat none) (p.after.filter Node.isReal)
    else none
  | _ => none

/-- The cells of a byte array. What was not stored, or is no `int`, is zero. -/
def bytesOf (cells : Cells) : List UInt8 :=
  cells.toList.map fun
    | some (.int v) => v.toUInt32.toUInt8
    | _ => 0

/-- The cells of a character array. -/
def charsOf (cells : Cells) : List UInt16 :=
  cells.toList.map fun
    | some (.int v) => v.toUInt32.toUInt16
    | _ => 0

/-- The cells of a string array. What was not stored, or is no string, is missing. -/
def stringsOf (cells : Cells) : List (Option Utf16) :=
  cells.toList.map fun
    | some (.text s) => some s
    | _ => none

/-- The bytes that a method without parameters returns, if it does nothing but fill an array. -/
def provided? (m : Method) : Option (List UInt8) := do
  if m.descriptor = "()[B" ∧ m.isStatic then
    let b ← m.body
    let p ← Place.find (·.content == some (.newArray byteArray)) [] b.nodes
    let (cells, rest) ← arrayAt p Opcode.bastore
    match (← rest.head?).content with
    | some (.leave (some .ref)) => some (bytesOf cells)
    | _ => none
  else none

/-- The bytes that each method of a class provides. -/
def providers (u : ClassUnit) : List (String × List UInt8) :=
  u.methods.filterMap fun m => (provided? m).map (m.name, ·)

/-- The table that the instruction at a place makes, and the executing nodes after it is filled. -/
def tableAt (p : Place) : Option (Table × List Node) :=
  match p.node.content with
  | some (.newArray kind) =>
    if kind = byteArray then (arrayAt p Opcode.bastore).map fun (c, rest) => (.bytes (bytesOf c), rest)
    else if kind = charArray then
      (arrayAt p Opcode.castore).map fun (c, rest) => (.chars (charsOf c), rest)
    else none
  | some (.typed .newArray name) =>
    if name = "java/lang/String" then
      (arrayAt p Opcode.aastore).map fun (c, rest) => (.strings (stringsOf c), rest)
    else none
  | some (.invoke _ m _) =>
    if m = ⟨"java/lang/String", "toCharArray", "()[C"⟩ then
      match (p.before.find? Node.isReal).bind Node.content with
      | some (.push (.text s)) => some (.chars s.units, p.after.filter Node.isReal)
      | _ => none
    else none
  | _ => none

/-- The table that is made at a place and stored into a static field of a class, by field name. -/
def storedAt (owner : String) (p : Place) : Option (String × Table) := do
  let (table, next) ← tableAt p
  match (← next.head?).content with
  | some (.field .putStatic m) => if m.owner = owner then some (m.name, table) else none
  | _ => none

/-- The tables that are stored into static fields of a class, by field name and in order; `before` is
nearest first, and `done` holds the tables found there, last first. -/
def tablesIn (owner : String) (done : List (String × Table)) (before : List Node) :
    List Node → List (String × Table)
  | [] => done.reverse
  | n :: rest =>
    tablesIn owner ((storedAt owner ⟨before, n, rest⟩).toList ++ done) (n :: before) rest

/-- The tables that a class fills when it is loaded. -/
def tables (u : ClassUnit) : List (String × Table) :=
  match (u.findMethod? "<clinit>" "()V").bind Method.body with
  | some b => tablesIn u.name [] [] b.nodes
  | none => []

/-- What was stored last under a name. -/
def lookupLast {α : Type} (name : String) (entries : List (String × α)) : Option α :=
  entries.reverse.lookup name

end StaticData

end Untangle
