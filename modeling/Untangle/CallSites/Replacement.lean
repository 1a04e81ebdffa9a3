import Untangle.CallSites.Hints

/-!
# Direct calls in the place of call sites

The arguments of a site are on the stack already, in the order in which the target takes them. So a
site becomes a single call, except for constructors: there the new object has to go under the
arguments, which are moved to free local slots and back.
-/

namespace Untangle

namespace CallSites

/-- What takes the place of a site. -/
structure Replacement where
  /-- What is to be done before the call. -/
  setup : List Instr := []
  call : Instr
  /-- Local slots taken for the arguments. -/
  spill : UInt16 := 0
  /-- Stack slots needed beyond those of the site. -/
  extraStack : UInt16 := 0
deriving Repr, Inhabited

/-- Where arguments are kept: each gets the slots after those of the arguments before it. -/
def parked (slot : UInt16) : List FieldType → List (ValueKind × UInt16)
  | [] => []
  | param :: rest => (param.valueKind, slot) :: parked (slot + UInt16.ofNat param.slots) rest

/-- Makes an object of a class from arguments on the stack; `base` is the first free local slot. -/
def constructorCall (owner : String) (d : MethodDescriptor) (base : UInt16) : Option Replacement :=
  if base.toNat + d.argSlots ≤ 65535 then
    let slots := parked base d.params
    some
      { setup := slots.reverse.map (fun (kind, slot) => .store kind slot) ++
          [.typed .new owner, .stack .dup] ++ slots.map (fun (kind, slot) => .load kind slot)
        call := .invoke .special ⟨owner, "<init>", MethodDescriptor.text ⟨d.params, none⟩⟩ false
        spill := UInt16.ofNat d.argSlots
        extraStack := 2 }
  else none

/-- The call that a site stands for, if the hints tell; `base` is the first free local slot. -/
def resolve (site : CallSite) (hints : Hints) (base : UInt16) : Option Replacement := do
  let hints := hints.withArguments site
  let lookup := hints.lookup.getD (if site.name = "v" then .virtual else .static)
  let (owner, name) ← hints.target? lookup site
  let d ← (MethodDescriptor.parse site.descriptor).toOption
  match lookup with
  | .static => some { call := .invoke .static ⟨owner, name, site.descriptor⟩ false }
  | .virtual => some { call := .invoke .virtual ⟨owner, name, (← d.withoutReceiver).text⟩ false }
  | .special => some { call := .invoke .special ⟨owner, name, (← d.withoutReceiver).text⟩ false }
  | .constructor => constructorCall owner d base

end CallSites

end Untangle
