import Untangle.Decryption.Context

/-!
# Tables of decrypted strings

Comma-separated values: a line per string, after a line with the names of the columns. A table without
strings is empty. A field with a comma, a quote or a line break is put in quotes, and quotes in it are
doubled.
-/

namespace Untangle

namespace Csv

/-- A character that has to stand in quotes. -/
def isSpecial (c : Char) : Bool := c == ',' || c == '"' || c == '\n' || c == '\r'

/-- A field as it is written. -/
def field (text : String) : String :=
  let cs := text.toList
  if cs.any isSpecial then
    "\"" ++ String.ofList (cs.flatMap fun c => if c = '"' then ['"', '"'] else [c]) ++ "\""
  else text

/-- A line. -/
def record (fields : List String) : String := ",".intercalate (fields.map field) ++ "\n"

def columns : List String := ["unit", "method", "routine", "recipe", "value"]

/-- The fields of a decrypted string. -/
def fieldsOf (d : DecryptedString) : List String := [d.unit, d.method, d.routine, d.recipe, d.value]

/-- A table that is being written. -/
structure Table where
  /-- The names of the columns were written. -/
  begun : Bool := false
  /-- What is written but not yet passed on. -/
  waiting : List UInt8 := []
deriving DecidableEq, Repr, Inhabited

namespace Table

/-- The most bytes that wait to be passed on. -/
def capacity : Nat := 8192

/-- Writes lines for some strings, the first of all after the names of the columns. -/
def add (t : Table) (strings : List DecryptedString) : Table :=
  if strings.isEmpty then t
  else
    let lines := (if t.begun then [] else [columns]) ++ strings.map fieldsOf
    { begun := true, waiting := t.waiting ++ (String.join (lines.map record)).toUTF8.toList }

/-- Passes on what is more than may wait, in full blocks. -/
def release (t : Table) : List UInt8 × Table :=
  let n := (t.waiting.length - 1) / capacity * capacity
  (t.waiting.take n, { t with waiting := t.waiting.drop n })

end Table

end Csv

end Untangle
