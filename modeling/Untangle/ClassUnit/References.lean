import Untangle.ClassUnit

/-!
# References to own members

Which of its own fields and methods the code of a class names: by field accesses, by calls, and by
the method handles of dynamic call sites.
-/

namespace Untangle

namespace Handle

/-- Kinds 1 to 4 access a field, the others call a method. -/
def isField (h : Handle) : Bool := h.kind ≤ 4

end Handle

namespace CallSite

/-- The handles a call site names: its linker and the handles among its arguments. -/
def handles (s : CallSite) : List Handle :=
  s.bootstrap :: s.arguments.filterMap fun
    | .handle h => some h
    | _ => none

end CallSite

namespace Instruction

/-- The fields of a class that an instruction reads or writes itself. -/
def accessesOf (owner : String) : Instr → List Signature
  | .field _ m => if m.owner = owner then [m.signature] else []
  | _ => []

/-- The fields of a class that an instruction names. -/
def fieldsOf (owner : String) : Instr → List Signature
  | .invokeDynamic site =>
    (site.handles.filter fun h => h.member.owner == owner && h.isField).map (·.member.signature)
  | i => i.accessesOf owner

/-- The fields of a class that an instruction may read. -/
def readsOf (owner : String) : Instr → List Signature
  | .field .getStatic m | .field .getField m => if m.owner = owner then [m.signature] else []
  | .invokeDynamic site =>
    (site.handles.filter fun h => h.member.owner == owner && h.isField).map (·.member.signature)
  | _ => []

/-- The methods of a class that an instruction calls. -/
def callsOf (owner : String) : Instr → List Signature
  | .invoke _ m _ => if m.owner = owner then [m.signature] else []
  | _ => []

/-- The methods of a class that an instruction names. -/
def methodsOf (owner : String) : Instr → List Signature
  | .invokeDynamic site =>
    (site.handles.filter fun h => h.member.owner == owner && !h.isField).map (·.member.signature)
  | i => i.callsOf owner

end Instruction

namespace ClassUnit

/-- What some function finds in the code of the class. -/
def collect (u : ClassUnit) (f : Instr → List Signature) : List Signature :=
  u.methods.flatMap fun m => m.instrs.flatMap f

/-- The own fields that the code names, with repetitions. -/
def referencedFields (u : ClassUnit) : List Signature := u.collect (·.fieldsOf u.name)

/-- The own methods that the code names, with repetitions. -/
def referencedMethods (u : ClassUnit) : List Signature := u.collect (·.methodsOf u.name)

/-- The own fields that the code reads or writes itself, with repetitions. -/
def accessedFields (u : ClassUnit) : List Signature := u.collect (·.accessesOf u.name)

/-- The own fields that the code may read, with repetitions. -/
def readFields (u : ClassUnit) : List Signature := u.collect (·.readsOf u.name)

end ClassUnit

end Untangle
