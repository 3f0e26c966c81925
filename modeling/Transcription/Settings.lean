import Transcription.Json.Reader
import Transcription.Table

/-!
# Settings

What a score shows besides the notes can be chosen, and so can the shortest rest that is written.
Settings are read from a JSON document, in which every option may be left out.
-/

namespace Transcription

/-- The output formats. -/
inductive Format where
  /-- The notation of the Alda language. -/
  | alda
  deriving DecidableEq

namespace Format

/-- The name of a format. -/
def name : Format → String
  | alda => "alda"

/-- The format with a name. -/
def ofName (s : String) : Except Failure Format :=
  if s = alda.name then .ok alda else .error (.unknownFormat s)

end Format

/-- What can be chosen about a score. -/
structure Settings where
  /-- The output format. -/
  format : Format := .alda
  /-- Whether each slice begins with a comment. -/
  sliceComments : Bool := true
  /-- Whether changes of quantization and volume are written. -/
  attributes : Bool := false
  /-- Whether the statistics follow the score. -/
  statistics : Bool := false
  /-- The shortest rest in ticks; without a choice it is a 1/256 rest. -/
  minRest : Option Int := none
  deriving DecidableEq

namespace Settings

/-- The names of the options. -/
def optionNames : List String :=
  ["format", "add_slice_comments", "add_attributes", "add_statistics", "min_rest_ticks"]

/-- The names that are no options, in the order of their code points. -/
def unknownNames (members : List (String × Json)) : List String :=
  (Table.ofList members).keys.filter (fun name => name ∉ optionNames)

/-- Every option that is given has to exist. -/
def checkNames (members : List (String × Json)) : Except Failure Unit :=
  match unknownNames members with
  | [] => .ok ()
  | unknown => .error (.unknownSettings unknown)

/-- The output format that is asked for. -/
def readFormat : Option Json → Except Failure Format
  | none => .ok .alda
  | some (.str s) => if s = Format.alda.name then .ok .alda else .error .formatUnknown
  | some (.arr _) => .error (.formatNotText "list")
  | some (.obj _) => .error (.formatNotText "dict")
  | some _ => .error .formatUnknown

/-- The shortest rest that is asked for. -/
def readMinRest : Option Json → Except Failure (Option Int)
  | none => .ok none
  | some (.int n) => if n < 1 then .error .minRestTooSmall else .ok (some n)
  | some _ => .error .minRestNotInteger

/-- The truth value of an option. -/
def readFlag (name : String) (default : Bool) : Option Json → Except Failure Bool
  | none => .ok default
  | some (.bool b) => .ok b
  | some _ => .error (.notBoolean name)

/-- The settings of the members of a document. -/
def ofMembers (members : List (String × Json)) : Except Failure Settings := do
  checkNames members
  let option := Json.member? members
  let format ← readFormat (option "format")
  let minRest ← readMinRest (Json.given? members "min_rest_ticks")
  let sliceComments ← readFlag "add_slice_comments" true (option "add_slice_comments")
  let attributes ← readFlag "add_attributes" false (option "add_attributes")
  let statistics ← readFlag "add_statistics" false (option "add_statistics")
  return { format, sliceComments, attributes, statistics, minRest }

/-- The settings of a document; the null document chooses nothing. -/
def ofDocument : Json → Except Failure Settings
  | .null => .ok {}
  | .obj members => ofMembers members
  | _ => .error (.notObject "config")

/-- The settings of a document in a file. -/
def ofDocumentBytes (bytes : ByteArray) : Except Failure Settings := do
  ofDocument (← Json.ofBytes bytes)

end Settings

end Transcription
