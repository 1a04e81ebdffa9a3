import Untangle.Simplification.ExceptionFlow
import Untangle.Simplification.JumpChain
import Untangle.Simplification.Literals

/-!
# Passes over method bodies

The simplifications of a body under the names they are reported by. A pass gives the number of
changes it made.
-/

namespace Untangle

/-- A named simplification of method bodies. -/
structure MethodPass where
  name : String
  run : Body → Except Error (Nat × Body)

namespace MethodPass

/-- A pass that cannot fail. -/
def ofTotal (name : String) (f : Body → Nat × Body) : MethodPass := ⟨name, fun b => .ok (f b)⟩

def constantFolding : MethodPass := ofTotal "constant-folding" Body.foldConstants

def deadBranch : MethodPass := ofTotal "dead-branch" Body.decideBranches

def constantSwitch : MethodPass := ofTotal "constant-switch" Body.decideSwitches

def pushPop : MethodPass := ofTotal "push-pop" Body.removePops

def jumpChain : MethodPass := ofTotal "jump-chain" Body.collapseJumpChains

def deadCode : MethodPass := ofTotal "dead-code" Body.removeDeadCode

def exceptionFlow : MethodPass := ⟨"exception-flow", Body.restoreExceptionFlow⟩

/-- The passes that are run together, over and over, until none of them changes anything. -/
def flowSimplification : List MethodPass :=
  [constantFolding, deadBranch, constantSwitch, pushPop, jumpChain, deadCode]

/-- Every pass over method bodies. -/
def all : List MethodPass := flowSimplification ++ [exceptionFlow]

/-- Runs passes one after the other; the changes of each, in order. -/
def runAll (passes : List MethodPass) (b : Body) : Except Error (List Nat × Body) :=
  passes.foldlM (fun (counts, b) pass => do
    let (changes, b) ← pass.run b
    return (counts ++ [changes], b)) ([], b)

end MethodPass

end Untangle
