import Untangle.Text.Combining
import Untangle.Text.Hex
import Untangle.Text.Invisible

/-!
# Quoted and escaped text

Two ways to write text so that nothing in it is lost on a reader: `quoted` for listings, between
double quotes, and `escaped` for one column of a table.
-/

namespace Untangle.Text

/-- One character of a quoted text: the usual short escapes, a code point for what has no shape or
would join the character in front, and everything else as it is. -/
def quoteChar (c : Char) : List Char :=
  if c == '\x00' then ['\\', '0']
  else if c == '\t' then ['\\', 't']
  else if c == '\r' then ['\\', 'r']
  else if c == '\n' then ['\\', 'n']
  else if c == '"' then ['\\', '"']
  else if c == '\\' then ['\\', '\\']
  else if CharClass.isCombining c || CharClass.isInvisible c then
    '\\' :: 'u' :: '\x7b' :: ((Hex.short c.toNat).toList ++ ['\x7d'])
  else [c]

/-- A text between double quotes. -/
def quoted (s : String) : String := String.ofList ('"' :: (s.toList.flatMap quoteChar ++ ['"']))

/-- One character of an escaped text: control characters are written out, and the backslash is
doubled so that the escapes stay readable. -/
def escapeChar (c : Char) : List Char :=
  if c == '\\' then ['\\', '\\']
  else if c == '\t' then ['\\', 't']
  else if c == '\n' then ['\\', 'n']
  else if c == '\r' then ['\\', 'r']
  else if c.toNat < 32 || c.toNat == 127 then '\\' :: 'x' :: (Hex.upper 2 c.toNat).toList
  else [c]

/-- A text without control characters. -/
def escaped (s : String) : String := String.ofList (s.toList.flatMap escapeChar)

end Untangle.Text
