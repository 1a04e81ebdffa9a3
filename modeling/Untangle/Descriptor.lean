import Untangle.Error

/-!
# Field and method descriptors

The types of fields and methods, the short text a class file writes them in, and the two readers of
that text. A reader takes exactly the written forms: `FieldType.parse` fails on any text that
`FieldType.text` does not produce, and so does `MethodDescriptor.parse`.
-/

namespace Untangle

/-- How the machine holds a value: the kind of a local variable or of a stack entry. -/
inductive ValueKind where
  | int | long | float | double | ref
deriving DecidableEq, Repr, Inhabited

/-- Local slots or stack slots a value of the kind takes. -/
def ValueKind.slots : ValueKind → Nat
  | .long | .double => 2
  | _ => 1

/-- The type of a field, a parameter or a result. -/
inductive FieldType where
  | byte | char | double | float | int | long | short | boolean
  /-- A class or interface, by its internal name. -/
  | object (name : String)
  | array (element : FieldType)
deriving DecidableEq, Repr, Inhabited

namespace FieldType

/-- The written form, as characters. -/
def chars : FieldType → List Char
  | byte => ['B']
  | char => ['C']
  | double => ['D']
  | float => ['F']
  | int => ['I']
  | long => ['J']
  | short => ['S']
  | boolean => ['Z']
  | object name => 'L' :: (name.toList ++ [';'])
  | array element => '[' :: element.chars

/-- The written form. -/
def text (t : FieldType) : String := String.ofList t.chars

/-- Reads one type from the front of a text. A class name is not empty and ends at the first
semicolon. -/
def scan : List Char → Option (FieldType × List Char)
  | 'B' :: rest => some (byte, rest)
  | 'C' :: rest => some (char, rest)
  | 'D' :: rest => some (double, rest)
  | 'F' :: rest => some (float, rest)
  | 'I' :: rest => some (int, rest)
  | 'J' :: rest => some (long, rest)
  | 'S' :: rest => some (short, rest)
  | 'Z' :: rest => some (boolean, rest)
  | '[' :: rest => (scan rest).map fun (element, rest) => (array element, rest)
  | 'L' :: rest =>
    match rest.takeWhile (· != ';'), rest.dropWhile (· != ';') with
    | c :: name, _ :: rest => some (object (String.ofList (c :: name)), rest)
    | _, _ => none
  | _ => none

/-- Reads a whole text as one type. -/
def parse (text : String) : Except Error FieldType :=
  match scan text.toList with
  | some (t, []) => .ok t
  | _ => .error (.invalidDescriptor text)

/-- Local slots or stack slots a value of the type takes. -/
def slots : FieldType → Nat
  | long | double => 2
  | _ => 1

/-- Whether a value takes two slots. -/
def isWide (t : FieldType) : Bool := t.slots == 2

/-- How a value of the type is held. -/
def valueKind : FieldType → ValueKind
  | long => .long
  | float => .float
  | double => .double
  | object _ | array _ => .ref
  | _ => .int

/-- Whether one constant push can produce a value of the type: a primitive type or a string. -/
def isLiteral : FieldType → Bool
  | array _ => false
  | object name => name == "java/lang/String"
  | _ => true

end FieldType

/-- The parameters and the result of a method; `none` is `void`. -/
structure MethodDescriptor where
  params : List FieldType
  result : Option FieldType
deriving DecidableEq, Repr, Inhabited

namespace MethodDescriptor

/-- The written form of a result. -/
def resultChars : Option FieldType → List Char
  | some t => t.chars
  | none => ['V']

/-- The written form, as characters. -/
def chars (d : MethodDescriptor) : List Char :=
  '(' :: (d.params.flatMap FieldType.chars ++ ')' :: resultChars d.result)

/-- The written form. -/
def text (d : MethodDescriptor) : String := String.ofList d.chars

/-- Reads types up to the closing parenthesis; `done` holds those read so far, last first. Every
type takes at least one character, so the length of the text bounds the number of steps. -/
def scanParams : Nat → List FieldType → List Char → Option (List FieldType × List Char)
  | 0, _, _ => none
  | _ + 1, done, ')' :: rest => some (done.reverse, rest)
  | steps + 1, done, cs =>
    match FieldType.scan cs with
    | some (t, rest) => scanParams steps (t :: done) rest
    | none => none

/-- Reads what follows the parameters: `V`, or one type and nothing after it. -/
def scanResult : List Char → Option (Option FieldType)
  | ['V'] => some none
  | cs =>
    match FieldType.scan cs with
    | some (t, []) => some (some t)
    | _ => none

/-- Reads a method descriptor from its characters. -/
def scan : List Char → Option MethodDescriptor
  | '(' :: rest => do
    let (params, rest) ← scanParams rest.length [] rest
    let result ← scanResult rest
    return { params, result }
  | _ => none

/-- Reads a whole text as a method descriptor. -/
def parse (text : String) : Except Error MethodDescriptor :=
  match scan text.toList with
  | some d => .ok d
  | none => .error (.invalidDescriptor text)

/-- Slots the arguments take, a receiver not counted. -/
def argSlots (d : MethodDescriptor) : Nat := d.params.foldr (fun t n => t.slots + n) 0

/-- The descriptor without its first parameter, if that one is a reference: what an instance method
looks like to its caller once the receiver is no longer an argument. -/
def withoutReceiver (d : MethodDescriptor) : Option MethodDescriptor :=
  match d.params with
  | .object _ :: rest | .array _ :: rest => some { d with params := rest }
  | _ => none

/-- Whether the method returns a string. -/
def returnsString (d : MethodDescriptor) : Bool := d.result == some (.object "java/lang/String")

end MethodDescriptor

end Untangle
