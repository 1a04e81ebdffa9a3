import Untangle.Members.GeneratedName
import Untangle.UnitPass

/-!
# Members that nobody uses

Fields and byte-array methods that obfuscators plant, recognised by name. They go unless the code of
the class names them.
-/

namespace Untangle

namespace JunkMembers

/-- The field that holds a picture in letters. -/
def pictureField : String := "nothing_to_see_here"

def isJunkField (f : Field) : Bool :=
  f.name == pictureField ||
    (f.access.isPrivate && f.access.isStatic && GeneratedName.isLowercaseRun 10 f.name)

def isJunkMethod (m : Method) : Bool :=
  m.access.isPrivate && m.descriptor == "()[B" && GeneratedName.isLowercaseRun 9 m.name

/-- Removes the planted members that the code does not name. -/
def run (u : ClassUnit) : Nat × ClassUnit :=
  let fields := u.referencedFields
  let methods := u.referencedMethods
  let (fieldsGone, u) := u.removeFields fun f => isJunkField f && !fields.contains f.signature
  let (methodsGone, u) := u.removeMethods fun m => isJunkMethod m && !methods.contains m.signature
  (fieldsGone + methodsGone, u)

end JunkMembers

namespace UnitPass

def junkMembers : UnitPass := ofTotal "junk-members" JunkMembers.run

end UnitPass

end Untangle
