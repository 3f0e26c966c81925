import Transcription.Text.Digit
import Transcription.Text.Quoted

/-!
# Options of the command line

Every option has a long name, and some have a short one. A long name may be cut short as long as one
option remains that begins so, and may have its value after an equals sign; short names without a
value may be joined, and the value of a short name may follow it directly. A word that is written
like a negative number is no option.
-/

namespace Transcription.CommandLine

/-- The options. -/
inductive Switch where
  /-- Show a help text. -/
  | help
  /-- Write the text to a file. -/
  | output
  /-- Read the settings from a file. -/
  | config
  /-- Add the statistics. -/
  | stats
  /-- Write changes of quantization and volume. -/
  | attributes
  /-- Leave out the comments of slices. -/
  | noSliceComments
  /-- Log every step. -/
  | verbose
  deriving DecidableEq

/-- The names of all options, in the order in which they are listed. -/
def switchNames : List (String × Switch) :=
  [("-h", .help), ("--help", .help), ("-o", .output), ("--output", .output),
    ("--config", .config), ("--stats", .stats), ("--attributes", .attributes),
    ("--no-slice-comments", .noSliceComments), ("-v", .verbose), ("--verbose", .verbose)]

namespace Switch

/-- Whether an option has a value. -/
def takesValue : Switch → Bool
  | output | config => true
  | _ => false

/-- All the names of an option. -/
def title (s : Switch) : String :=
  "/".intercalate ((switchNames.filter (fun e => e.2 = s)).map Prod.fst)

/-- The option with a name. -/
def named? (name : String) : Option Switch :=
  (switchNames.find? (fun e => e.1 = name)).map Prod.snd

end Switch

/-- Why a command line is refused. -/
inductive UsageError where
  /-- Several options begin like this one. -/
  | ambiguous (word : String) (names : List String)
  /-- An option has no value. -/
  | valueMissing (switch : Switch)
  /-- An option has a value and takes none. -/
  | valueIgnored (switch : Switch) (value : String)
  /-- There is no input. -/
  | inputMissing
  /-- Some words stand for nothing. -/
  | unrecognized (words : List String)
  /-- There is no file at the path of the input. -/
  | inputNotFound (path : String)
  deriving DecidableEq

/-- The wording of a refused command line. -/
def UsageError.message : UsageError → String
  | ambiguous word names =>
    "ambiguous option: " ++ word ++ " could match " ++ ", ".intercalate names
  | valueMissing switch => "argument " ++ switch.title ++ ": expected one argument"
  | valueIgnored switch value =>
    "argument " ++ switch.title ++ ": ignored explicit argument " ++ Text.quoted value
  | inputMissing => "the following arguments are required: input"
  | unrecognized words => "unrecognized arguments: " ++ " ".intercalate words
  | inputNotFound path => "input not found: " ++ path

/-- A word of the command line. -/
inductive Word where
  /-- A word that is no option. -/
  | operand (word : String)
  /-- The two dashes after which no word is an option. -/
  | dashes
  /-- An option by its long or short name, with what is attached to it. -/
  | option (switch : Switch) (isShort : Bool) (attached : Option (List Char))
  /-- An option that does not exist. -/
  | unknown (word : String)
  deriving DecidableEq

namespace Word

/-- The part before the first equals sign, and the part after it. -/
def splitEquals (cs : List Char) : List Char × Option (List Char) :=
  match cs.dropWhile (· ≠ '=') with
  | [] => (cs, none)
  | _ :: value => (cs.takeWhile (· ≠ '='), some value)

/-- Whether a name has only one dash. -/
def isShortName (name : List Char) : Bool := name.drop 1 |>.head? |>.all (· ≠ '-')

/-- The options that a long word can stand for. -/
def longCandidates (cs : List Char) : List (String × Word) :=
  let (start, attached) := splitEquals cs
  (switchNames.filter (fun e => start.isPrefixOf e.1.toList)).map
    (fun e => (e.1, .option e.2 (isShortName e.1.toList) attached))

/-- The options that a short word can stand for: the short name that it begins with. -/
def shortCandidates (cs : List Char) : List (String × Word) :=
  (switchNames.filter (fun e => e.1.toList = cs.take 2)).map
    (fun e => (e.1, .option e.2 true (some (cs.drop 2))))

/-- The options that a word with a dash can stand for. -/
def candidates (cs : List Char) : List (String × Word) :=
  if isShortName cs then shortCandidates cs else longCandidates cs

/-- Whether a character is a decimal digit of any script. -/
def isDigit (c : Char) : Bool := (Text.digitValue? c).isSome

/-- Whether characters are a number: digits, or a point with digits after it and perhaps before. -/
def isNumber (cs : List Char) : Bool :=
  match cs.dropWhile isDigit with
  | [] => cs ≠ []
  | c :: fraction => c = '.' ∧ fraction ≠ [] ∧ fraction.all isDigit

/-- Whether a word is a dash and a number, after which the line may end. -/
def isNegativeNumber (cs : List Char) : Bool :=
  let number := cs.drop 1
  isNumber (if number.getLast? = some '\n' then number.dropLast else number)

/-- What a word with a dash is that begins no option. -/
def ofUnknown (word : String) : Word :=
  if isNegativeNumber word.toList ∨ ' ' ∈ word.toList then operand word else unknown word

/-- The option that a word names in full, perhaps with a value after an equals sign. -/
def ofFullName? (cs : List Char) : Option Word :=
  let (name, attached) := splitEquals cs
  match Switch.named? (String.ofList cs) with
  | some switch => some (option switch (isShortName cs) none)
  | none => (Switch.named? (String.ofList name)).map
      (fun switch => option switch (isShortName name) attached)

/-- What a word is that stands before any two dashes. -/
def ofText (word : String) : Except UsageError Word :=
  match word.toList with
  | '-' :: c :: rest =>
    let cs := '-' :: c :: rest
    match ofFullName? cs with
    | some w => .ok w
    | none =>
      match candidates cs with
      | [] => .ok (ofUnknown word)
      | [w] => .ok w.2
      | several => .error (.ambiguous word (several.map Prod.fst))
  | _ => .ok (operand word)

/-- The words of a command line. After two dashes all words are operands. -/
def ofTexts : List String → Except UsageError (List Word)
  | [] => .ok []
  | word :: rest =>
    if word = "--" then .ok (dashes :: rest.map operand)
    else do
      let w ← ofText word
      return w :: (← ofTexts rest)

end Word

end Transcription.CommandLine
