/-!
# Names of files

A path is text with slashes between its parts. A slash at the front starts at the root. Empty parts
and parts that are a single dot do not count, except for a dot at the very front.
-/

namespace Untangle

namespace PathName

/-- A path starts with the root, or with the current directory spelled out. -/
def hasLead : List Char → Bool
  | '/' :: _ | ['.'] | '.' :: '/' :: _ => true
  | _ => false

/-- What a path starts with: the root or a dot, or nothing. -/
def lead (cs : List Char) : List Char := if hasLead cs then cs.take 1 else []

/-- The rest of the path, backwards. -/
def backwards (cs : List Char) : List Char := (cs.drop (lead cs).length).reverse

/-- A part that does not count. -/
def isVoid (part : List Char) : Bool := part.isEmpty || part == ['.']

/-- Cuts the last part that counts off a path given backwards, in at most so many steps: the part
itself, and what stands before it, backwards. -/
def cutLast : Nat → List Char → Option (List Char × List Char)
  | 0, _ => none
  | steps + 1, back =>
    if back.isEmpty then none
    else
      let part := back.takeWhile (· != '/')
      let before := (back.dropWhile (· != '/')).drop 1
      if isVoid part then cutLast steps before else some (part.reverse, before)

/-- Leaves out the parts at the end that do not count; the path is given backwards. -/
def trimmed : Nat → List Char → List Char
  | 0, back => back
  | steps + 1, back =>
    if !back.isEmpty && isVoid (back.takeWhile (· != '/')) then
      trimmed steps ((back.dropWhile (· != '/')).drop 1)
    else back

/-- The last part of a path, and the path before it. -/
def split (path : String) : Option (List Char × String) := do
  let cs := path.toList
  let back := backwards cs
  let (part, before) ← cutLast (back.length + 1) back
  return (part, String.ofList (lead cs ++ (trimmed before.length before).reverse))

/-- The name of the file, unless the path ends with a step up. -/
def fileName? (path : String) : Option (List Char) :=
  match split path with
  | some (part, _) => if part = ['.', '.'] then none else some part
  | none => none

/-- The directory that the file is in. -/
def parent (path : String) : String :=
  match split path with
  | some (_, before) => before
  | none => ""

/-- The last part of the path is a single dot: a directory, by way of an entry in it. -/
def endsInside (path : String) : Bool :=
  ((path.splitOn "/").filter (· != "")).getLast? == some "."

/-- A file name without its ending, and the ending. A dot at the front starts no ending. -/
def stemAndEnding (name : List Char) : List Char × Option (List Char) :=
  let back := name.reverse
  match (back.dropWhile (· != '.')).drop 1 with
  | [] => (name, none)
  | stem => (stem.reverse, some (back.takeWhile (· != '.')).reverse)

/-- A path inside a directory. -/
def join (dir name : String) : String :=
  match dir.toList.getLast? with
  | none => name
  | some '/' => dir ++ name
  | some _ => dir ++ "/" ++ name

/-- Where the result for an input goes: next to it or into another directory, with `-deobf` after the
name. -/
def output (input : String) (dir : Option String) : String :=
  let (stem, ending) := stemAndEnding ((fileName? input).getD [])
  let name := String.ofList stem ++ "-deobf" ++ (ending.elim "" fun e => "." ++ String.ofList e)
  join (dir.getD (parent input)) name

end PathName

end Untangle
