import Untangle.ClassUnit
import Untangle.Text.Alphanumeric

/-!
# What a call site stands for

A dynamic call site is linked at run time by a routine, which looks its target up by name. The names
stand in the routine's code or among the site's arguments, and their shape tells which is the class
and which the method. Failing that, the site's own name may spell both: the class, an underscore, the
method.
-/

namespace Untangle

namespace CallSites

/-- The class whose methods look targets up. -/
def lookupClass : String := "java/lang/invoke/MethodHandles$Lookup"

/-- How the descriptor of a linking routine starts. -/
def linkerParams : String :=
  "(Ljava/lang/invoke/MethodHandles$Lookup;Ljava/lang/String;Ljava/lang/invoke/MethodType;"

/-- How the descriptor of a linking routine ends. -/
def linkerResult : String := ")Ljava/lang/invoke/CallSite;"

/-- The method can link call sites, going by its descriptor. -/
def isLinker (m : Method) : Bool :=
  m.isStatic && linkerParams.toList.isPrefixOf m.descriptor.toList &&
    linkerResult.toList.isSuffixOf m.descriptor.toList

/-! ### Names -/

/-- Letters, digits, `_` and `$`, at least one of them. -/
def isIdentifier (cs : List Char) : Bool :=
  !cs.isEmpty && cs.all fun c => c == '_' || c == '$' || CharClass.isAlphanumeric c

/-- The parts of a name between slashes. -/
def segments (cs : List Char) : List (List Char) :=
  let (first, rest) := cs.foldr
    (fun c (first, rest) => if c = '/' then ([], first :: rest) else (c :: first, rest)) ([], [])
  first :: rest

/-- Divides packages. -/
def isSeparator (c : Char) : Bool := c == '/' || c == '.'

/-- A class name with slashes between its parts. -/
def internalName (cs : List Char) : List Char := cs.map fun c => if c = '.' then '/' else c

/-- Class and method from a site's own name. The class ends at the first underscore after its last
package. -/
def splitSiteName (siteName : String) : Option (String × String) :=
  let back := siteName.toList.reverse
  let packages := (back.dropWhile fun c => !isSeparator c).reverse
  let last := (back.takeWhile fun c => !isSeparator c).reverse
  match packages, last.dropWhile (· != '_') with
  | _ :: _, _ :: name =>
    if isIdentifier name then
      some (String.ofList (internalName (packages ++ last.takeWhile (· != '_'))), String.ofList name)
    else none
  | _, _ => none

/-! ### Hints -/

/-- What is looked up. -/
inductive Lookup where
  | static | virtual | special | constructor
deriving DecidableEq, Repr, Inhabited

/-- What a method of the lookup class looks up. -/
def Lookup.ofName? : String → Option Lookup
  | "findStatic" => some .static
  | "findVirtual" => some .virtual
  | "findSpecial" => some .special
  | "findConstructor" => some .constructor
  | _ => none

/-- What is known about the target of a site. -/
structure Hints where
  owner : Option String := none
  name : Option String := none
  lookup : Option Lookup := none
deriving DecidableEq, Repr, Inhabited

namespace Hints

/-- Takes a text for the class if it has separators, and for the method if not. The first text of
each kind counts; descriptors and texts that are no names are passed over. -/
def classify (h : Hints) (text : String) : Hints :=
  let cs := text.toList
  if cs.head? = some '(' then h
  else if cs.any isSeparator then
    let owner := internalName cs
    if h.owner.isNone && (segments owner).all isIdentifier then
      { h with owner := some (String.ofList owner) }
    else h
  else if h.name.isNone && (isIdentifier cs || text == "<init>") then { h with name := some text }
  else h

/-- The text that an instruction pushes. -/
def text? : Instr → Option String
  | .push (.text s) => some s.lossy
  | _ => none

/-- What an instruction looks up. -/
def lookup? : Instr → Option Lookup
  | .invoke _ m _ => if m.owner = lookupClass then Lookup.ofName? m.name else none
  | _ => none

/-- What the code of a linking routine gives away. -/
def ofLinker (m : Method) : Hints :=
  { (m.instrs.filterMap text?).foldl classify {} with lookup := m.instrs.findSome? lookup? }

/-- The text of a site's argument. -/
def argumentText? : BootstrapArg → Option String
  | .literal (.text s) => some s.lossy
  | .literal (.type name) => some name
  | _ => none

/-- Adds what the arguments of a site give away. -/
def withArguments (h : Hints) (site : CallSite) : Hints :=
  (site.arguments.filterMap argumentText?).foldl classify h

/-- The class and the method a site stands for. A constructor needs no name. -/
def target? (h : Hints) (lookup : Lookup) (site : CallSite) : Option (String × String) :=
  match h.owner, h.name with
  | some owner, some name => some (owner, if lookup = .constructor then "<init>" else name)
  | some owner, none =>
    if lookup = .constructor then some (owner, "<init>") else splitSiteName site.name
  | _, _ => splitSiteName site.name

end Hints

end CallSites

end Untangle
