import Untangle.CallSites.Resolution
import Untangle.Decryption.Strings
import Untangle.Engine.Family
import Untangle.Initialization.ConstructorJunk
import Untangle.Initialization.StaticJunk
import Untangle.Members.Forwarders
import Untangle.Members.XorHelpers

/-!
# The engine

Which families a class belongs to is decided on the class as it was read. The pipelines of these
families run first, in order, then the pipeline for every class.
-/

namespace Untangle

/-- Every pass over classes. -/
def UnitPass.all : List UnitPass :=
  [stringDecryption, callSite, handleGenerators, xorHelpers, constructorJunk, staticInitializer,
    junkMembers, proxyMembers]

namespace Pipeline

/-- Flow simplification until it settles. -/
def flow : Stage := .methods MethodPass.flowSimplification .fixedPoint

/-- Exception flow, restored once. -/
def exceptions : Stage := .methods [MethodPass.exceptionFlow] .once

def skidFuscator : Pipeline where
  name := "skidfuscator"
  stages :=
    [flow, exceptions, .unit .stringDecryption .once, flow, .unit .callSite .once,
      .unit .handleGenerators .once]

def colonial : Pipeline where
  name := "colonial"
  stages :=
    [flow, exceptions, .unit .stringDecryption .once, .unit .callSite .once,
      .unit .handleGenerators .once, .unit .junkMembers .once, .unit .proxyMembers .fixedPoint]

/-- For every class. -/
def general : Pipeline where
  name := "general"
  stages :=
    [flow, exceptions, flow, .unit .stringDecryption .once, .unit .callSite .once,
      .unit .handleGenerators .once, .unit .xorHelpers .once, .unit .constructorJunk .once,
      .unit .staticInitializer .once, .unit .junkMembers .once, flow]

end Pipeline

/-- Runs pipelines over classes. -/
structure Engine where
  families : List Family
  general : Pipeline
  /-- The most rounds that a repeated stage may take. -/
  cap : Nat

namespace Engine

/-- The rounds allowed unless asked otherwise. -/
def defaultCap : Nat := 1000

/-- An engine; at least one round is always allowed. -/
def new (families : List Family) (general : Pipeline) (cap : Nat) : Engine :=
  ⟨families, general, max cap 1⟩

/-- The engine with all known families. -/
def standard (cap : Nat) : Engine :=
  new [⟨.skidFuscator, .skidFuscator⟩, ⟨.colonial, .colonial⟩] .general cap

/-- Works on a class. -/
def run (e : Engine) (u : ClassUnit) (c : Context) : Except Error (ClassUnit × Context × Report) := do
  let matched := e.families.filter (·.detector.detect u)
  let (u, c, r) ← matched.foldlM (fun (u, c, (r : Report)) f =>
    f.pipeline.run e.cap u c { r with families := r.families ++ [f.detector.name] }) (u, c, {})
  e.general.run e.cap u c r

end Engine

end Untangle
