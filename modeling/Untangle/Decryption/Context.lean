import Untangle.Decryption.Recipe
import Untangle.Text.Quoted

/-!
# What is remembered about decryption

While a class is worked on, the outcome of every call to a decryption routine is kept, failures
included, so that no call is tried twice. The strings that were put in the place of calls are kept
for the report.
-/

namespace Untangle

/-- A call, as far as it decides the outcome within one class. -/
structure CallKey where
  owner : String
  /-- Name and descriptor of the routine. -/
  routine : String
  /-- The arguments as text. -/
  fingerprint : String
deriving DecidableEq, Repr, Inhabited

/-- The key of a call. -/
def CallKey.of (owner : String) (routine descriptor : String) (arguments : List Argument) : CallKey :=
  ⟨owner, routine ++ descriptor, "|".intercalate (arguments.map Argument.shown)⟩

/-- The outcomes of calls made so far. -/
structure DecryptionCache where
  entries : List (CallKey × Option Plaintext) := []
  /-- How often an outcome was found here. -/
  hits : Nat := 0
deriving DecidableEq, Repr, Inhabited

namespace DecryptionCache

/-- The outcome of a call, if it was made before. -/
def find? (c : DecryptionCache) (key : CallKey) : Option (Option Plaintext) := c.entries.lookup key

/-- The outcome of a call, from here or worked out and kept. -/
def getOrCompute (c : DecryptionCache) (key : CallKey) (compute : Unit → Option Plaintext) :
    Option Plaintext × DecryptionCache :=
  match c.find? key with
  | some outcome => (outcome, { c with hits := c.hits + 1 })
  | none =>
    let outcome := compute ()
    (outcome, { c with entries := (key, outcome) :: c.entries })

/-- Number of calls kept. -/
def size (c : DecryptionCache) : Nat := c.entries.length

def isEmpty (c : DecryptionCache) : Bool := c.entries.isEmpty

end DecryptionCache

/-- A string that took the place of a call. -/
structure DecryptedString where
  unit : String
  method : String
  routine : String
  recipe : String
  /-- The text, with control characters escaped. -/
  value : String
deriving DecidableEq, Repr, Inhabited

/-- What the passes over one class share. -/
structure Context where
  cache : DecryptionCache := {}
  decrypted : List DecryptedString := []
deriving DecidableEq, Repr, Inhabited

end Untangle
