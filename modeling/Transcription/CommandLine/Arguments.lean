import Transcription.CommandLine.Option

/-!
# Arguments of the command line

A command line names one input and any options. The last value of an option counts. Words that stand
for nothing are collected and refused together at the end.
-/

namespace Transcription.CommandLine

/-- What an option has for a path. -/
inductive PathValue where
  /-- A path. -/
  | path (path : String)
  /-- Two dashes, which stand for no path. -/
  | dashes
  deriving DecidableEq

/-- The value of an option that has a path. -/
def PathValue.ofText (text : String) : PathValue := if text = "--" then dashes else path text

/-- What a command line asks for. -/
structure Arguments where
  /-- The path of the input. -/
  input : String
  /-- The path of the output, if it is a file. -/
  output : Option PathValue := none
  /-- The path of the settings, if there are any. -/
  config : Option PathValue := none
  /-- Whether statistics are added. -/
  stats : Bool := false
  /-- Whether changes of quantization and volume are written. -/
  attributes : Bool := false
  /-- Whether the comments of slices are left out. -/
  noSliceComments : Bool := false
  /-- Whether every step is logged. -/
  verbose : Bool := false
  deriving DecidableEq

/-- Why reading a command line stops early. -/
inductive Stop where
  /-- The help text is asked for. -/
  | help
  /-- The command line is refused. -/
  | refused (e : UsageError)
  deriving DecidableEq

/-- A command line while it is read. -/
structure Progress where
  /-- What the options read so far ask for. -/
  arguments : Arguments := { input := "" }
  /-- The input, once it is read. -/
  input : Option String := none
  /-- The words that stand for nothing. -/
  extras : List String := []

namespace Progress

/-- Add a word that stands for nothing. -/
def addExtra (p : Progress) (word : String) : Progress := { p with extras := p.extras ++ [word] }

/-- Take a word that is no option: the first one is the input. -/
def addOperand (p : Progress) (word : String) : Progress :=
  match p.input with
  | none => { p with input := some word }
  | some _ => p.addExtra word

/-- Take an option with its value. -/
def addSwitch (p : Progress) (switch : Switch) (value : String) : Except Stop Progress :=
  let a := p.arguments
  match switch with
  | .help => .error .help
  | .output => .ok { p with arguments := { a with output := some (.ofText value) } }
  | .config => .ok { p with arguments := { a with config := some (.ofText value) } }
  | .stats => .ok { p with arguments := { a with stats := true } }
  | .attributes => .ok { p with arguments := { a with attributes := true } }
  | .noSliceComments => .ok { p with arguments := { a with noSliceComments := true } }
  | .verbose => .ok { p with arguments := { a with verbose := true } }

end Progress

/-- The options of one word: those that have all they need, and the one that waits for its value in
the next word. -/
structure Cluster where
  /-- The options with their values. -/
  complete : List (Switch × String) := []
  /-- An option that waits for its value. -/
  waiting : Option Switch := none

/-- Put an option without a value before the others of its word. -/
def Cluster.cons (switch : Switch) (c : Cluster) : Cluster :=
  { c with complete := (switch, "") :: c.complete }

/-- An option with nothing attached. -/
def Cluster.single (switch : Switch) : Cluster :=
  if switch.takesValue then { waiting := some switch } else { complete := [(switch, "")] }

/-- Read what is attached to a short option: its value, or more short options. -/
def readShort (switch : Switch) : List Char → Except UsageError Cluster
  | [] =>
    if switch.takesValue then .ok { complete := [(switch, "")] }
    else .error (.valueIgnored switch "")
  | c :: rest =>
    let value := String.ofList (c :: rest)
    if switch.takesValue then .ok { complete := [(switch, value)] }
    else match Switch.named? (String.ofList ['-', c]), rest with
      | none, _ => .error (.valueIgnored switch value)
      | some next, [] => .ok ((Cluster.single next).cons switch)
      | some next, d :: more => (readShort next (d :: more)).map (Cluster.cons switch)

/-- Read the options of one word. -/
def readOption (switch : Switch) (isShort : Bool) :
    Option (List Char) → Except UsageError Cluster
  | none => .ok (Cluster.single switch)
  | some attached =>
    if isShort then readShort switch attached
    else
      let value := String.ofList attached
      if switch.takesValue then .ok { complete := [(switch, value)] }
      else .error (.valueIgnored switch value)

/-- Take the options of one word, the last one perhaps with the word after it as its value. Gives
back the words that are left. -/
def takeCluster (p : Progress) (c : Cluster) (rest : List Word) :
    Except Stop (Progress × List Word) := do
  let (all, rest) ← match c.waiting, rest with
    | none, rest => .ok (c.complete, rest)
    | some switch, .operand value :: rest => .ok (c.complete ++ [(switch, value)], rest)
    | some switch, _ => .error (.refused (.valueMissing switch))
  return (← all.foldlM (fun p s => p.addSwitch s.1 s.2) p, rest)

/-- Take at most `fuel` words one after the other. Two dashes are dropped next to the input and
stand for nothing elsewhere. -/
def takeWords : Nat → Progress → List Word → Except Stop Progress
  | 0, p, _ => .ok p
  | _ + 1, p, [] => .ok p
  | fuel + 1, p, .operand word :: rest =>
    let rest := match p.input, rest with
      | none, .dashes :: rest => rest
      | _, rest => rest
    takeWords fuel (p.addOperand word) rest
  | fuel + 1, p, .dashes :: rest =>
    takeWords fuel (if p.input.isNone ∧ rest ≠ [] then p else p.addExtra "--") rest
  | fuel + 1, p, .unknown word :: rest => takeWords fuel (p.addExtra word) rest
  | fuel + 1, p, .option switch isShort attached :: rest =>
    match readOption switch isShort attached with
    | .error e => .error (.refused e)
    | .ok cluster => do
      let (p, rest) ← takeCluster p cluster rest
      takeWords fuel p rest

/-- The arguments of a command line. -/
def Arguments.read (texts : List String) : Except Stop Arguments :=
  match Word.ofTexts texts with
  | .error e => .error (.refused e)
  | .ok words => do
    let p ← takeWords words.length {} words
    match p.input with
    | none => .error (.refused .inputMissing)
    | some input =>
      if p.extras = [] then .ok { p.arguments with input }
      else .error (.refused (.unrecognized p.extras))

end Transcription.CommandLine
