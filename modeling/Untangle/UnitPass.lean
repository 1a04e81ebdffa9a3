import Untangle.ClassUnit.References
import Untangle.Decryption.Context

/-!
# Passes over classes

A simplification that needs a whole class. It gives the number of changes it made; zero means that
it found nothing to do.
-/

namespace Untangle

/-- A named simplification of classes. -/
structure UnitPass where
  name : String
  run : ClassUnit → Context → Except Error (Nat × ClassUnit × Context)

namespace UnitPass

/-- A pass that cannot fail and does not look at what is remembered. -/
def ofTotal (name : String) (f : ClassUnit → Nat × ClassUnit) : UnitPass :=
  ⟨name, fun u c =>
    let (changes, u) := f u
    .ok (changes, u, c)⟩

end UnitPass

end Untangle
