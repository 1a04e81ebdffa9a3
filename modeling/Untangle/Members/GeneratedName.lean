/-!
# Generated names

Obfuscators name what they add in ways that people do not.
-/

namespace Untangle

namespace GeneratedName

def isLower (c : Char) : Bool := 'a' ≤ c && c ≤ 'z'

def isUpper (c : Char) : Bool := 'A' ≤ c && c ≤ 'Z'

def isDigit (c : Char) : Bool := '0' ≤ c && c ≤ '9'

def isLetter (c : Char) : Bool := isLower c || isUpper c

/-- Seven to thirteen letters and digits, at least one of each. -/
def isMixed (name : String) : Bool :=
  let cs := name.toList
  7 ≤ cs.length && cs.length ≤ 13 && cs.all (fun c => isLetter c || isDigit c) && cs.any isLetter &&
    cs.any isDigit

/-- At least so many lower-case letters and nothing else. -/
def isLowercaseRun (least : Nat) (name : String) : Bool :=
  let cs := name.toList
  least ≤ cs.length && cs.all isLower

end GeneratedName

end Untangle
