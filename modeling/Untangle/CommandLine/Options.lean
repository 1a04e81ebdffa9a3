import Untangle.CommandLine.Similarity
import Untangle.Engine.Standard

/-!
# Command-line options

The words of a command line are an input, options, and a subcommand at the end. An option is a single
letter after a dash, or a name after two. Letters may share a dash. A value follows its option in the
same word, with or without an equals sign, or is the next word unless that starts with a dash.

After a word of two dashes everything is input. A word that is nearly the name of a subcommand is
taken for a mistake and not for an input, there too. A setting that is named needs a value, be it the
one that it has by default.
-/

namespace Untangle

namespace CommandLine

/-- Why there is nothing to run. -/
inductive Refusal where
  | help
  | version
  | invalid (reason : String)
deriving DecidableEq, Repr, Inhabited

/-! ### Options -/

/-- Options without a value. Those about logging are accepted, but nothing is logged. -/
inductive Flag where
  | verbose | moreVerbose | quiet | graphs | dry
deriving DecidableEq, Repr, Inhabited

/-- Options with a value. -/
inductive Setting where
  | outputDir | threads | maxIterations | graphsDir | strings
deriving DecidableEq, Repr, Inhabited

/-- The value of a setting that is not given. -/
def Setting.default? : Setting → Option String
  | maxIterations => some (toString Engine.defaultCap)
  | graphsDir => some "."
  | _ => none

/-- What an option stands for. -/
inductive Switch where
  | flag (f : Flag)
  | setting (s : Setting)
  | help
  | version
deriving DecidableEq, Repr, Inhabited

namespace Switch

/-- The option of a letter. -/
def ofLetter? : Char → Option Switch
  | 'o' => some (setting .outputDir)
  | 'j' => some (setting .threads)
  | 'v' => some (flag .verbose)
  | 'm' => some (flag .moreVerbose)
  | 'q' => some (flag .quiet)
  | 'g' => some (flag .graphs)
  | 'h' => some help
  | 'V' => some version
  | _ => none

/-- The option of a name. -/
def ofName? : String → Option Switch
  | "output-dir" => some (setting .outputDir)
  | "threads" => some (setting .threads)
  | "max-iterations" => some (setting .maxIterations)
  | "graphs-dir" => some (setting .graphsDir)
  | "strings" => some (setting .strings)
  | "more-verbose" => some (flag .moreVerbose)
  | "dry" => some (flag .dry)
  | "help" => some help
  | "version" => some version
  | _ => none

end Switch

/-! ### Words -/

/-- What was found so far. -/
structure Found where
  input : Option String := none
  flags : List Flag := []
  /-- The settings named, last first, with their values if there were any. -/
  settings : List (Setting × Option String) := []
  /-- The last setting has no value yet, which may be the next word. -/
  expecting : Bool := false
  /-- The subcommand for strings only was given. -/
  stringsOnly : Bool := false
deriving DecidableEq, Repr, Inhabited

namespace Found

/-- Notes a setting. -/
def withSetting (f : Found) (s : Setting) (value : Option (List Char)) : Found :=
  let value := value.map fun cs => String.ofList (cs.dropWhile (· == '='))
  { f with settings := (s, value) :: f.settings, expecting := value.isNone }

/-- Gives a value to the last setting. -/
def withValue (f : Found) (value : String) : Found :=
  match f.settings with
  | (s, _) :: rest => { f with settings := (s, some value) :: rest, expecting := false }
  | [] => f

/-- Takes the letters after a dash. -/
def letters (f : Found) : List Char → Except Refusal Found
  | [] => .ok f
  | c :: rest =>
    match Switch.ofLetter? c with
    | some (.flag flag) => { f with flags := flag :: f.flags, expecting := false }.letters rest
    | some (.setting s) => .ok (f.withSetting s (if rest.isEmpty then none else some rest))
    | some .help => .error .help
    | some .version => .error .version
    | none => .error (.invalid ("unknown option -" ++ c.toString))

/-- The name after two dashes, and what follows an equals sign. -/
def nameAndValue (word : List Char) : String × Option (List Char) :=
  let rest := word.dropWhile (· == '-')
  (String.ofList (rest.takeWhile (· != '=')),
    match rest.dropWhile (· != '=') with
    | [] => none
    | _ :: value => some value)

/-- Takes a name after two dashes. -/
def named (f : Found) (word : List Char) : Except Refusal Found :=
  let (name, value) := nameAndValue word
  match Switch.ofName? name with
  | some (.flag flag) => .ok { f with flags := flag :: f.flags, expecting := false }
  | some (.setting s) => .ok (f.withSetting s value)
  | some .help => .error .help
  | some .version => .error .version
  | none => .error (.invalid ("unknown option --" ++ name))

end Found

/-! ### Subcommands -/

/-- The names of the subcommands. -/
def subcommands : List String := ["strings-only", "help"]

/-- Notes an input. What is nearly the name of a subcommand, or the name itself, is none. -/
def Found.withInput (f : Found) (word : String) : Except Refusal Found :=
  if subcommands.any (Similarity.isClose word) then .error (.invalid ("unknown subcommand " ++ word))
  else
    match f.input with
    | none => .ok { f with input := some word, expecting := false }
    | some _ => .error (.invalid ("unexpected argument " ++ word))

/-- The words after the subcommand for strings only: it takes none but options for help. -/
def afterStringsOnly : List String → Except Refusal Unit
  | [] | ["--"] => .ok ()
  | word :: _ =>
    match word.toList with
    | '-' :: '-' :: rest =>
      match (Found.nameAndValue rest).1 with
      | "help" => .error .help
      | "version" => .error .version
      | _ => .error (.invalid ("unexpected argument " ++ word))
    | '-' :: 'h' :: _ => .error .help
    | '-' :: 'V' :: _ => .error .version
    | _ => .error (.invalid ("unexpected argument " ++ word))

/-- The words after the subcommand for help: a subcommand, or nothing. -/
def afterHelp : List String → Refusal
  | [] => .help
  | [word] => if subcommands.contains word then .help else .invalid ("unknown subcommand " ++ word)
  | _ => .invalid "unknown subcommand"

/-- Starts with a dash and is more than that. -/
def startsOption : List Char → Bool
  | '-' :: _ :: _ => true
  | _ => false

/-- Takes the words of a command line. -/
def collect (f : Found) : List String → Except Refusal Found
  | [] => .ok f
  | word :: rest =>
    let cs := word.toList
    if f.expecting && !startsOption cs then collect (f.withValue word) rest
    else if word = "--" then rest.foldlM Found.withInput f
    else if word = "strings-only" then do
      afterStringsOnly rest
      return { f with stringsOnly := true }
    else if word = "help" then .error (afterHelp rest)
    else if startsOption cs then do
      let f ← if cs.take 2 = ['-', '-'] then f.named cs else f.letters (cs.drop 1)
      collect f rest
    else do collect (← f.withInput word) rest

/-! ### Values -/

/-- What a command line asks for. -/
structure Options where
  input : String
  outputDir : Option String
  maxIterations : Nat
  graphs : Bool
  graphsDir : String
  dry : Bool
  strings : Option String
  stringsOnly : Bool
deriving DecidableEq, Repr, Inhabited

/-- A number of at most 64 bits, with or without a plus sign. -/
def number? (text : String) : Option Nat :=
  let cs := text.toList
  let digits := if cs.head? = some '+' then cs.drop 1 else cs
  if digits.isEmpty || digits.any (fun c => c < '0' || '9' < c) then none
  else
    let n := digits.foldl (fun n c => n * 10 + (c.toNat - '0'.toNat)) 0
    if n < 1 <<< 64 then some n else none

/-- The value of a setting, or what it is without one. -/
def Found.value? (f : Found) (s : Setting) : Option String :=
  match f.settings.lookup s with
  | some (some value) => some value
  | _ => s.default?

/-- A setting is named that has no value. -/
def Found.lacksValue (f : Found) : Bool := f.settings.any fun s => s.2.isNone && s.1.default?.isNone

/-- The number that a setting has to be. -/
def Found.number (f : Found) (s : Setting) : Except Refusal (Option Nat) :=
  match f.value? s with
  | none => .ok none
  | some text =>
    match number? text with
    | some n => .ok (some n)
    | none => .error (.invalid ("invalid number " ++ text))

/-- Nothing in the list twice. -/
def isDistinct {α : Type} [BEq α] : List α → Bool
  | [] => true
  | a :: rest => !rest.contains a && isDistinct rest

/-- Reads a command line. -/
def parse (words : List String) : Except Refusal Options := do
  let f ← collect {} words
  let some input := f.input | throw (.invalid "no input")
  if f.lacksValue then throw (.invalid "a value is missing")
  if !isDistinct f.flags || !isDistinct (f.settings.map Prod.fst) then
    throw (.invalid "an option is given twice")
  discard (f.number .threads)
  let maxIterations ← f.number .maxIterations
  return { input
           outputDir := f.value? .outputDir
           maxIterations := maxIterations.getD Engine.defaultCap
           graphs := f.flags.contains .graphs
           graphsDir := (f.value? .graphsDir).getD "."
           dry := f.flags.contains .dry
           strings := f.value? .strings
           stringsOnly := f.stringsOnly }

end CommandLine

end Untangle
