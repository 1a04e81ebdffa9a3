import Untangle.Code.Dot
import Untangle.Engine.Standard

/-!
# Deobfuscation

From the bytes of a class to the bytes of the class as the engine leaves it. A class that nothing was
changed about keeps its bytes. On request the flow graphs of the methods are drawn, as they were
before and as they are afterwards.
-/

namespace Untangle

/-- What became of a class. -/
structure Deobfuscated where
  /-- The how-manieth class it was, from 0. -/
  number : Nat
  name : String
  data : List UInt8
  modified : Bool
  report : Report
  decrypted : List DecryptedString
  /-- The flow graphs by file name. -/
  graphs : List (String × String)
deriving Repr, Inhabited

namespace Graphs

/-- When a graph was drawn. -/
inductive Phase where
  | before | after
deriving DecidableEq, Repr, Inhabited

def Phase.name : Phase → String
  | before => "before"
  | after => "after"

/-- Stands for a character that is not used in file names. -/
def safeChar (c : Char) : Char := if c = '/' ∨ c = '<' ∨ c = '>' then '_' else c

/-- The file for the graph of a method. -/
def fileName (unit method : String) (phase : Phase) : String :=
  (unit ++ "_" ++ method ++ "_" ++ phase.name ++ ".dot").map safeChar

/-- Methods with names by which they differ: the second of a name gets the number 1, and so on. -/
def numbered (seen : List String) (done : List (String × Body)) :
    List (String × Body) → List (String × Body)
  | [] => done.reverse
  | (name, b) :: rest =>
    let count := seen.count name
    numbered (name :: seen) ((if count = 0 then name else name ++ toString count, b) :: done) rest

/-- Adds a file in the place of one with the same name. -/
def put (files : List (String × String)) (file : String × String) : List (String × String) :=
  files.filter (fun f => f.1 != file.1) ++ [file]

/-- The decoded methods of a class by name. -/
def named (u : ClassUnit) : List (String × Body) := u.methods.filterMap fun m => m.body.map (m.name, ·)

/-- Adds the graphs of a class. -/
def draw (u : ClassUnit) (phase : Phase) (files : List (String × String)) : List (String × String) :=
  ((numbered [] [] (named u)).map fun (name, b) =>
    (fileName u.name name phase, (FlowGraph.of b).dot)).foldl put files

end Graphs

/-- How classes are worked on. -/
structure Deobfuscator where
  engine : Engine := .standard Engine.defaultCap
  graphs : Bool := false

namespace Deobfuscator

/-- Works on a class that was read already from `data`. -/
def runOn (d : Deobfuscator) (u : ClassUnit) (data : List UInt8) (number : Nat) :
    Except Error Deobfuscated := do
  let (v, c, report) ← d.engine.run u {}
  let graphs := if d.graphs then Graphs.draw v .after (Graphs.draw u .before []) else []
  let modified := v.isModified
  let data ← if modified then v.bytes else pure data
  return { number, name := v.name, data, modified, report, decrypted := c.decrypted, graphs }

/-- Works on the bytes of a class. -/
def run (d : Deobfuscator) (data : List UInt8) (number : Nat) : Except Error Deobfuscated := do
  d.runOn (← ClassUnit.parse data) data number

end Deobfuscator

/-! ### Many classes at once -/

/-- What is shared by those who work on classes at the same time. -/
structure Gathering where
  /-- Numbers given out. -/
  numbered : Nat := 0
  /-- Results in the order in which they were put in, each with the place of its class among those given and the
  name it was given under. -/
  results : List (Nat × String × Except Error Deobfuscated) := []
  /-- Why everything is stopped. -/
  stopped : Option Error := none
deriving Inhabited

namespace Gathering

/-- Gives out the next number. -/
def number (g : Gathering) : Nat × Gathering := (g.numbered, { g with numbered := g.numbered + 1 })

/-- Puts in what became of a class. An overflow is no result: it stops everything. -/
def put (g : Gathering) (place : Nat) (name : String) : Except Error Deobfuscated → Gathering
  | .ok r => { g with results := g.results ++ [(place, name, .ok r)] }
  | .error e =>
    if e.isOverflow then { g with stopped := g.stopped.or (some e) }
    else { g with results := g.results ++ [(place, name, .error e)] }

/-- The results by place, unless everything was stopped. -/
def collect (g : Gathering) : Except Error (List (String × Except Error Deobfuscated)) :=
  match g.stopped with
  | some e => .error e
  | none => .ok ((g.results.mergeSort fun a b => a.1 ≤ b.1).map Prod.snd)

end Gathering

/-- Works on classes, each of which keeps the name it was given under, one after the other. -/
def Deobfuscator.runAll (d : Deobfuscator) (units : List (String × List UInt8)) :
    Except Error (List (String × Except Error Deobfuscated)) :=
  let one (g : Gathering) (u : (String × List UInt8) × Nat) : Gathering :=
    let (number, g) := g.number
    g.put u.2 u.1.1 (d.run u.1.2 number)
  (units.zipIdx.foldl one {}).collect

end Untangle
