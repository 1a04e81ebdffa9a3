import Untangle.Cipher.Aes
import Untangle.Digest.Md2
import Untangle.Digest.Md5
import Untangle.Digest.Sha1
import Untangle.Digest.Sha256
import Untangle.Text.Base64
import Untangle.Text.Blank
import Untangle.Text.Utf16

/-!
# Decryption recipes

The ways in which a routine may turn the literals it is called with into a string. None is known to
be the right one for a routine: each is tried in turn, and the first result that looks like text is
taken.
-/

namespace Untangle

/-- A literal that a routine is called with. -/
inductive Argument where
  | int (value : Int32)
  | long (value : Int64)
  | text (value : Utf16)
  | bytes (value : List UInt8)
deriving DecidableEq, Repr, Inhabited

namespace Argument

/-- Numbers in brackets. -/
def listed (ns : List Nat) : String := "[" ++ ", ".intercalate (ns.map toString) ++ "]"

/-- The argument as text. Different arguments have different texts. -/
def shown : Argument → String
  | int v => toString v.toInt
  | long v => toString v.toInt ++ "L"
  | text s => listed (s.units.map UInt16.toNat)
  | bytes b => "b" ++ listed (b.map UInt8.toNat)

end Argument

/-- A static array that the class fills when it is loaded. -/
inductive Table where
  | strings (entries : List (Option Utf16))
  | chars (units : List UInt16)
  | bytes (data : List UInt8)
deriving DecidableEq, Repr, Inhabited

/-- A call to a decryption routine. -/
structure Call where
  arguments : List Argument
  /-- The internal name of the class that declares the routine. -/
  className : String
  routine : String
  /-- The tables that the routine reads. -/
  tables : List Table
deriving DecidableEq, Repr, Inhabited

/-- Looks like text: not empty, and at least 70 % of its units printable ASCII. -/
def isPlausible (text : String) : Bool :=
  let units := (Utf16.ofString text).units
  let printable := units.countP fun u => 32 ≤ u && u ≤ 126
  units.length > 0 && printable * 10 ≥ units.length * 7

/-- A way to decrypt. -/
structure Recipe where
  name : String
  apply : Call → Option String

namespace Recipe

/-- Bytes as UTF-8 text. -/
def utf8? (bytes : List UInt8) : Option String := String.fromUTF8? (ByteArray.mk bytes.toArray)

/-- Bytes in pairs, most significant first; an odd byte at the end is left out. -/
def bigEndianUnits : List UInt8 → List UInt16
  | a :: b :: rest => UInt16.ofNat (a.toNat * 256 + b.toNat) :: bigEndianUnits rest
  | _ => []

/-- Bytes in pairs, least significant first; an odd byte at the end is left out. -/
def littleEndianUnits : List UInt8 → List UInt16
  | a :: b :: rest => UInt16.ofNat (b.toNat * 256 + a.toNat) :: littleEndianUnits rest
  | _ => []

/-- Bytes as UTF-16 text: a byte order mark says which byte of a unit comes first, otherwise it is
the most significant. An odd byte at the end and lone surrogates are replaced. -/
def utf16 (bytes : List UInt8) : String :=
  let (units, rest) :=
    match bytes with
    | 0xfe :: 0xff :: rest => (bigEndianUnits rest, rest)
    | 0xff :: 0xfe :: rest => (littleEndianUnits rest, rest)
    | _ => (bigEndianUnits bytes, bytes)
  (Utf16.mk (if rest.length % 2 = 1 then units ++ [0xfffd] else units)).lossy

/-- Combines every unit with the low half of a key. -/
def xorUnits (s : Utf16) (key : Int32) : Option String :=
  let key := key.toUInt32.toUInt16
  (Utf16.mk (s.units.map (· ^^^ key))).toString?

/-- Combines bytes with a key that is repeated as often as needed. -/
def xorCyclic (key : List UInt8) (bytes : List UInt8) : List UInt8 :=
  bytes.zipIdx.map fun (b, i) => b ^^^ key.getD (i % key.length) 0

/-- The bytes of a text in base 64, white space around it aside. -/
def base64? (s : Utf16) : Option (List UInt8) := Base64.decode (CharClass.trimmed s.lossy.toList)

/-- Text and a key. -/
def xorKey : Recipe where
  name := "xor-key"
  apply c :=
    match c.arguments with
    | [.text s, .int k] => xorUnits s k
    | _ => none

/-- Bytes and a key that is written out in decimal. -/
def xorKeyString : Recipe where
  name := "xor-key-string"
  apply c :=
    match c.arguments with
    | [.bytes data, .int k] => some (utf16 (xorCyclic (toString k.toInt).toUTF8.toList data))
    | _ => none

/-- A digest cut off or filled up with zeros to make a key. -/
def keyOf (digest : List UInt8) (size : Nat) : List UInt8 :=
  digest.take size ++ List.replicate (size - digest.length) 0

/-- Text in base 64, enciphered with a key made from the names of the class and the routine by one of
four digests, in one of three sizes. -/
def aesEcb : Recipe where
  name := "aes-ecb"
  apply c :=
    match c.arguments with
    | .text s :: _ => do
      let data ← base64? s
      let dotted := String.ofList (c.className.toList.map fun x => if x = '/' then '.' else x)
      let seed := (dotted ++ "." ++ c.routine).toUTF8.toList
      [Md5.digest, Sha1.digest, Md2.digest, Sha256.digest].findSome? fun digest =>
        let hash := digest seed
        [16, 24, 32].findSome? fun size => do
          let text ← utf8? (← Aes.decipher (keyOf hash size) data)
          if isPlausible text then some text else none
    | _ => none

/-- Text in base 64 and a key. -/
def base64Xor : Recipe where
  name := "base64-xor"
  apply c :=
    match c.arguments with
    | [.text s, .int k] => do
      let key := k.toUInt32.toUInt8
      utf8? ((← base64? s).map (· ^^^ key))
    | _ => none

/-- Keys that are often used. -/
def commonKeys : List Int32 := [0xdead, 0xbeef, 0xcafe, 0xbabe, 0x1337, 42, 13]

/-- Text alone, with a key that has to be guessed. -/
def xorCommonKeys : Recipe where
  name := "xor-common-keys"
  apply c :=
    match c.arguments with
    | [.text s] => (commonKeys.filterMap (xorUnits s)).find? isPlausible
    | _ => none

/-- Text of which every unit was moved up by a distance. -/
def charShift : Recipe where
  name := "char-shift"
  apply c :=
    match c.arguments with
    | [.text s, .int k] =>
      let distance := k.toUInt32.toUInt16
      (Utf16.mk (s.units.map (· - distance))).toString?
    | _ => none

/-- The entry of a list at a place that is not negative. -/
def at? {α : Type} (entries : List α) (i : Int32) : Option α :=
  if 0 ≤ i then entries[i.toInt.toNat]? else none

/-- What one table gives: a string by its place, the same with a key, or a piece of a character
array. -/
def fromTable (arguments : List Argument) : Table → Option String
  | .strings entries =>
    match arguments with
    | [.int i] => ((at? entries i).join).map Utf16.lossy
    | [.int i, .int k] => ((at? entries i).join).bind (xorUnits · k)
    | _ => none
  | .chars units =>
    match arguments with
    | [.int offset, .int length] =>
      if 0 ≤ offset ∧ 0 ≤ length ∧ offset.toInt + length.toInt ≤ units.length then
        (Utf16.mk ((units.drop offset.toInt.toNat).take length.toInt.toNat)).toString?
      else none
    | _ => none
  | .bytes _ => none

/-- Places in a table that the routine reads. -/
def staticTable : Recipe where
  name := "static-table"
  apply c := c.tables.findSome? (fromTable c.arguments)

/-- Bytes that are the units of the text. -/
def charBuffer : Recipe where
  name := "char-buffer"
  apply c :=
    match c.arguments with
    | [.bytes data] => (Utf16.mk (bigEndianUnits data)).toString?
    | _ => none

/-- The recipes in the order in which they are tried. -/
def all : List Recipe :=
  [xorKey, xorKeyString, aesEcb, base64Xor, xorCommonKeys, charShift, staticTable, charBuffer]

end Recipe

/-- A text and the recipe that gave it. -/
structure Plaintext where
  recipe : String
  text : String
deriving DecidableEq, Repr, Inhabited

/-- Tries every recipe in order; the first result that looks like text counts. -/
def decrypt (c : Call) : Option Plaintext :=
  Recipe.all.findSome? fun r => do
    let text ← r.apply c
    if isPlausible text then some ⟨r.name, text⟩ else none

end Untangle
