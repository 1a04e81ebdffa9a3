/-!
# Code page 437

The character set of archives that do not say which one they use. Its lower half is ASCII.
-/

namespace Untangle

namespace CodePage437

/-- The upper half of the character set, in order. -/
def upperHalf : Array Char :=
  ("ÇüéâäàåçêëèïîìÄÅÉæÆôöòûùÿÖÜ¢£¥₧ƒ" ++
    "áíóúñÑªº¿⌐¬½¼¡«»░▒▓│┤╡╢╖╕╣║╗╝╜╛┐" ++
    "└┴┬├─┼╞╟╚╔╩╦╠═╬╧╨╤╥╙╘╒╓╫╪┘┌█▄▌▐▀" ++
    "αßΓπΣσµτΦΘΩδ∞φε∩≡±≥≤⌠⌡÷≈°∙·√ⁿ²■\u00A0").toList.toArray

/-- The character of a byte. -/
def char (b : UInt8) : Char := if b < 128 then Char.ofNat b.toNat else upperHalf.getD (b.toNat - 128) ' '

/-- The text that bytes stand for. -/
def decode (bytes : List UInt8) : String := String.ofList (bytes.map char)

end CodePage437

end Untangle
