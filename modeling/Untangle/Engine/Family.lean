import Untangle.CallSites.Hints
import Untangle.Engine.Pipeline
import Untangle.Members.GeneratedName

/-!
# Families of obfuscators

Classes show by which obfuscator they were treated: by the names it gives, and by the shape of the
code it writes. A family has a test for classes and a pipeline for those that pass it.
-/

namespace Untangle

/-- What tells the classes of a family. -/
structure Detector where
  name : String
  detect : ClassUnit → Bool

/-- A kind of obfuscation and what is done about it. -/
structure Family where
  detector : Detector
  pipeline : Pipeline

namespace Detector

/-- The decoded bodies of a class. -/
def bodies (u : ClassUnit) : List Body := u.methods.filterMap Method.body

/-- The executing instructions of a protected range. -/
def protectedInstrs (b : Body) (r : Range) : List Instr := (b.realBetween r.start r.stop).map Node.instr

/-! ### SkidFuscator -/

/-- Hashes or checks a text. -/
def isTextHelper (m : Method) : Bool :=
  ["get", "hash", "checkType"].contains m.name &&
    ["(Ljava/lang/String;)I", "(Ljava/lang/String;)Ljava/lang/String;"].contains m.descriptor

/-- A call site with a made-up name. -/
def isOddSite : Instr → Bool
  | .invokeDynamic site => site.name == "v" || site.name.toList.contains '_'
  | _ => false

/-- A range so short, or with a throw in it, that it looks like control flow in disguise. -/
def isOddRange (b : Body) (r : Range) : Bool :=
  let is := protectedInstrs b r
  is.length ≤ 5 || is.contains .raise

def skidFuscator : Detector where
  name := "SkidFuscator"
  detect u :=
    u.name == "skid/Driver" || u.methods.any isTextHelper ||
      (bodies u).any fun b => b.code.instrs.any isOddSite || b.ranges.any (isOddRange b)

/-! ### Colonial -/

def usesBase64 : Instr → Bool
  | .invoke _ m _ => m.owner == "java/util/Base64"
  | _ => false

def isXor : Instr → Bool
  | .math _ .xor => true
  | _ => false

/-- Exceptions that a range may catch to be taken for a made-up one. -/
def broadCatches : List String :=
  ["java/lang/RuntimeException", "java/lang/IllegalArgumentException", "java/lang/Exception"]

/-- A short range with a broad catch. -/
def isBroadRange (b : Body) (r : Range) : Bool :=
  (protectedInstrs b r).length < 5 && r.catchType.any broadCatches.contains

/-- Number of members with generated names. -/
def generatedNames (u : ClassUnit) : Nat :=
  u.fields.countP (fun f => GeneratedName.isMixed f.name) +
    u.methods.countP fun m => GeneratedName.isMixed m.name

def colonial : Detector where
  name := "Colonial"
  detect u :=
    u.methods.any CallSites.isLinker ||
      (bodies u).any (fun b => b.code.instrs.any usesBase64 && b.code.instrs.any isXor) ||
      (bodies u).any (fun b => b.ranges.any (isBroadRange b)) || generatedNames u > 5

end Detector

end Untangle
