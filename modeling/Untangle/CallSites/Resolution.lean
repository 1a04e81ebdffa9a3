import Untangle.CallSites.Replacement
import Untangle.Simplification.Sweep
import Untangle.UnitPass

/-!
# Resolving call sites

Call sites that a routine of the same class links become direct calls. A routine goes once no site
needs it, and with it the fields that held linked sites; so do routines that only made method
handles.
-/

namespace Untangle

namespace CallSites

/-- The linking routines of a class with what they give away. -/
def linkers (u : ClassUnit) : List (Signature × Hints) :=
  (u.methods.filter isLinker).map fun m => (m.signature, Hints.ofLinker m)

/-- The routine of this class that links the site of an instruction. -/
def linkedBy? (owner : String) : Instr → Option (CallSite × Signature)
  | .invokeDynamic site =>
    if site.bootstrap.member.owner = owner then some (site, site.bootstrap.member.signature) else none
  | _ => none

/-- What is carried along within a method. -/
structure Progress where
  nextId : Nat
  spill : UInt16 := 0
  extraStack : UInt16 := 0
  /-- The routines of which a site was resolved. -/
  resolved : List Signature := []
deriving Repr, Inhabited

/-- Puts a direct call in the place of a site. Of several routines with one signature the last
counts. -/
def rule (owner : String) (known : List (Signature × Hints)) (base : UInt16) (p : Progress)
    (passed : List Node) (n : Node) : Progress × Option (List Node) :=
  let found : Option (Signature × Replacement) := do
    let (site, linker) ← linkedBy? owner (← n.content)
    let hints ← known.reverse.lookup linker
    return (linker, ← resolve site hints base)
  match found with
  | none => (p, none)
  | some (linker, r) =>
    let setup := r.setup.zipIdx p.nextId |>.map fun (i, id) => (⟨id, some i⟩ : Node)
    ({ nextId := p.nextId + r.setup.length
       spill := max p.spill r.spill
       extraStack := max p.extraStack r.extraStack
       resolved := linker :: p.resolved },
      some ({ n with content := some r.call } :: (setup.reverse ++ passed)))

/-- The sum, but at most what 16 bits hold. -/
def saturatingAdd (a b : UInt16) : UInt16 := UInt16.ofNat (min (a.toNat + b.toNat) 65535)

/-- Resolves the sites of a body: the routines of which a site was resolved, the number of sites, and
the new body. All sites move their arguments to the same slots. -/
def resolveBody (owner : String) (known : List (Signature × Hints)) (b : Body) :
    List Signature × Nat × Body :=
  let (p, changes, b) := b.sweepWith (fun _ => rule owner known b.maxLocals) ⟨b.code.nextId, 0, 0, []⟩
  (p.resolved, changes,
    { b with maxLocals := saturatingAdd b.maxLocals p.spill
             maxStack := saturatingAdd b.maxStack p.extraStack
             code := { b.code with nextId := p.nextId } })

/-- Goes through the methods. -/
def resolveMethods (owner : String) (known : List (Signature × Hints)) (resolved : List Signature)
    (changes : Nat) (done : List Method) : List Method → List Signature × Nat × List Method
  | [] => (resolved, changes, done.reverse)
  | m :: rest =>
    match m.body with
    | none => resolveMethods owner known resolved changes (m :: done) rest
    | some b =>
      let (here, n, b) := resolveBody owner known b
      resolveMethods owner known (here ++ resolved) (changes + n) ({ m with body := some b } :: done) rest

/-- The routines that sites are still linked by. -/
def stillLinking (u : ClassUnit) : List Signature :=
  u.collect fun i => ((linkedBy? u.name i).map Prod.snd).toList

/-- The types of fields that hold linked sites. -/
def holderTypes : List String :=
  ["Ljava/lang/invoke/CallSite;", "Ljava/lang/invoke/MutableCallSite;",
    "Ljava/lang/invoke/ConstantCallSite;"]

/-- Resolves the call sites of a class. -/
def run (u : ClassUnit) : Nat × ClassUnit :=
  let known := linkers u
  if known.isEmpty then (0, u)
  else
    let (resolved, changes, methods) := resolveMethods u.name known [] 0 [] u.methods
    let u := { u with methods }
    let needed := stillLinking u
    let removable := resolved.filter fun s => !needed.contains s
    if removable.isEmpty then (changes, u)
    else
      let (methodsGone, u) := u.removeMethods fun m => removable.contains m.signature
      let accessed := u.accessedFields
      let (fieldsGone, u) := u.removeFields fun f =>
        holderTypes.contains f.descriptor && !accessed.contains f.signature
      (changes + methodsGone + fieldsGone, u)

/-! ### Makers of method handles -/

/-- Names a method of a class. -/
def calls (owner : String) (names : List String) : Instr → Bool
  | .invoke _ m _ => m.owner == owner && names.contains m.name
  | _ => false

/-- A private method that looks a method up and returns a handle for it. -/
def makesHandle (m : Method) : Bool :=
  m.access.isPrivate && ")Ljava/lang/invoke/MethodHandle;".toList.isSuffixOf m.descriptor.toList &&
    m.instrs.any (calls "java/lang/invoke/MethodHandles" ["lookup"]) &&
    m.instrs.any (calls lookupClass ["findStatic", "findVirtual"])

/-- Removes the makers of method handles that nothing calls. -/
def removeHandleMakers (u : ClassUnit) : Nat × ClassUnit :=
  let called := u.referencedMethods
  u.removeMethods fun m => makesHandle m && !called.contains m.signature

end CallSites

namespace UnitPass

def callSite : UnitPass := ofTotal "call-site" CallSites.run

def handleGenerators : UnitPass := ofTotal "handle-generators" CallSites.removeHandleMakers

end UnitPass

end Untangle
