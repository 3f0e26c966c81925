import Transcription.Failure
import Transcription.Text.Integer

/-!
# Key signatures

A key signature is given by its place in the circle of fifths, from seven flats to seven sharps, and
by its mode. A descriptor such as `2/0` names the place, with flats negative, and the mode. Reading
a descriptor accepts the thirty standard signatures and nothing else.
-/

namespace Transcription

/-- The two modes of a key. -/
inductive Mode where
  /-- The major mode, written as 0. -/
  | major
  /-- The minor mode, written as 1. -/
  | minor
  deriving DecidableEq

namespace Mode

/-- The number of a mode in a descriptor. -/
def number : Mode → Int
  | major => 0
  | minor => 1

/-- The mode of a number. -/
def ofNumber? (n : Int) : Option Mode :=
  if n = 0 then some major else if n = 1 then some minor else none

/-- The word for a mode in the notation. -/
def word : Mode → String
  | major => "major"
  | minor => "minor"

/-- A mode is read back from its number. -/
@[simp] theorem ofNumber?_number (m : Mode) : ofNumber? m.number = some m := by
  cases m <;> rfl

end Mode

/-- A standard key signature. -/
structure KeySignature where
  /-- The number of sharps, or of flats if negative. -/
  fifths : Int
  /-- The mode of the key. -/
  mode : Mode
  /-- There are at most seven flats. -/
  low : -7 ≤ fifths := by decide
  /-- There are at most seven sharps. -/
  high : fifths ≤ 7 := by decide
  deriving DecidableEq

namespace KeySignature

/-- The key without sharps and flats. -/
def cMajor : KeySignature where
  fifths := 0
  mode := .major

/-- The key signature of a place in the circle of fifths and a mode number. -/
def of? (fifths mode : Int) : Option KeySignature :=
  if h : -7 ≤ fifths ∧ fifths ≤ 7 then
    (Mode.ofNumber? mode).map (fun m => ⟨fifths, m, h.1, h.2⟩)
  else none

/-- The text that names a key signature. -/
def descriptor (k : KeySignature) : String :=
  let mode := k.mode.number
  s!"{k.fifths}/{mode}"

/-- Read the descriptor of a key signature. The first slash ends the first number. -/
def read? (text : String) : Option KeySignature := do
  let cs := text.toList
  if '/' ∉ cs then none
  let fifths ← (Text.readIntOf (cs.takeWhile (· ≠ '/'))).toOption
  let mode ← (Text.readIntOf ((cs.dropWhile (· ≠ '/')).drop 1)).toOption
  of? fifths mode

/-- Read the descriptor of a key signature, or refuse it. -/
def read (text : String) : Except Failure KeySignature :=
  match read? text with
  | some k => .ok k
  | none => .error (.invalidKey text)

/-- The first notes of the major keys, from seven flats to seven sharps. -/
def majorTonics : List String :=
  ["c :flat", "g :flat", "d :flat", "a :flat", "e :flat", "b :flat", "f", "c", "g", "d", "a", "e",
    "b", "f :sharp", "c :sharp"]

/-- The first notes of the minor keys, from seven flats to seven sharps. -/
def minorTonics : List String :=
  ["a :flat", "e :flat", "b :flat", "f", "c", "g", "d", "a", "e", "b", "f :sharp", "c :sharp",
    "g :sharp", "d :sharp", "a :sharp"]

/-- The first note of a key. -/
def tonic (k : KeySignature) : String :=
  let tonics := match k.mode with
    | .major => majorTonics
    | .minor => minorTonics
  tonics.getD (k.fifths + 7).toNat ""

/-- A key signature as a value of the notation. -/
def token (k : KeySignature) : String :=
  "[:" ++ k.tonic ++ " :" ++ k.mode.word ++ "]"

/-- The names of the major keys, from seven flats to seven sharps. -/
def majorNames : List String :=
  ["Cb", "Gb", "Db", "Ab", "Eb", "Bb", "F", "C", "G", "D", "A", "E", "B", "F#", "C#"]

/-- The names of the minor keys, from seven flats to seven sharps. -/
def minorNames : List String :=
  ["Abm", "Ebm", "Bbm", "Fm", "Cm", "Gm", "Dm", "Am", "Em", "Bm", "F#m", "C#m", "G#m", "D#m",
    "A#m"]

/-- The name of a key. -/
def name (k : KeySignature) : String :=
  let names := match k.mode with
    | .major => majorNames
    | .minor => minorNames
  names.getD (k.fifths + 7).toNat ""

/-- The key signature of a key's name. -/
def ofName (name : String) : Except Failure KeySignature :=
  let found := match majorNames.idxOf? name with
    | some i => of? ((i : Int) - 7) 0
    | none => (minorNames.idxOf? name).bind (fun i => of? ((i : Int) - 7) 1)
  match found with
  | some k => .ok k
  | none => .error (.unknownKeyName name)

/-- The value of the notation for a place in the circle of fifths and a mode number. -/
def tokenOf (fifths mode : Int) : Except Failure String :=
  match of? fifths mode with
  | some k => .ok k.token
  | none => .error (.invalidKey s!"{fifths}/{mode}")

/-- Every key signature is found by its numbers. -/
theorem of?_fifths_mode (k : KeySignature) : of? k.fifths k.mode.number = some k := by
  have h : -7 ≤ k.fifths ∧ k.fifths ≤ 7 := ⟨k.low, k.high⟩
  simp [of?, h]

end KeySignature

end Transcription
