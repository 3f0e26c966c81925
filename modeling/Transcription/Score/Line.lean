import Transcription.Key.Signature
import Transcription.Part.Basic

/-!
# Lines of a score

A score is a list of lines: comments, global settings, part declarations, markers, and the music of
the selected part. A chord joins its notes and rests with slashes; the part goes on after the
shortest of them.
-/

namespace Transcription

/-- A setting that holds for all parts. -/
inductive GlobalSetting where
  /-- A key signature. -/
  | key (signature : KeySignature)
  /-- A tempo. -/
  | tempo (text : String)
  deriving DecidableEq

/-- A setting of one part. -/
inductive Attribute where
  /-- The pressed share of notes, in percent. -/
  | quant (percent : Int)
  /-- The volume of notes, in percent. -/
  | volume (percent : Int)
  deriving DecidableEq

/-- What sounds in a chord. -/
inductive Element where
  /-- A note, with the change of octave before it and its length if that is written. -/
  | note (shift : Int) (name : String) (length : Option String)
  /-- A rest with its length. -/
  | rest (length : String)
  deriving DecidableEq

/-- A chord with what comes before it in its line. -/
structure ChordLine where
  /-- The slice to whose marker the part jumps. -/
  jump : Option Int := none
  /-- The rest up to the chord. -/
  gap : Option String := none
  /-- The settings that change. -/
  attributes : List Attribute := []
  /-- The notes of the chord, and a rest if the part goes on before they end. -/
  elements : List Element
  deriving DecidableEq

/-- A line of a score. -/
inductive Line where
  /-- An empty line. -/
  | blank
  /-- A comment with the number of a slice. -/
  | comment (slice : Int)
  /-- Settings for all parts. -/
  | globals (settings : List GlobalSetting)
  /-- The declaration of a part, which selects it. -/
  | declare (part : PartId)
  /-- The selection of a declared part. -/
  | select (part : PartId)
  /-- The marker of a slice. -/
  | marker (slice : Int)
  /-- A rest that stands alone. -/
  | rest (length : String)
  /-- A chord. -/
  | chord (line : ChordLine)
  deriving DecidableEq

/-- A global setting as text. -/
def GlobalSetting.text : GlobalSetting → String
  | key signature => "(key-signature! " ++ signature.token ++ ")"
  | tempo text => "(tempo! " ++ text ++ ")"

/-- A setting of a part as text. -/
def Attribute.text : Attribute → String
  | quant percent => s!"(quant {percent})"
  | volume percent => s!"(vol {percent})"

/-- A change of octave as text, one mark for each octave. -/
def octaveMarks (shift : Int) : String :=
  String.ofList (List.replicate shift.natAbs (if 0 < shift then '>' else '<'))

/-- A rest as text. -/
def restText (length : String) : String := "r" ++ length

/-- A part of a chord as text. -/
def Element.text : Element → String
  | note shift name length => octaveMarks shift ++ name ++ length.getD ""
  | rest length => restText length

namespace ChordLine

/-- The words of a chord's line: the jump, the rest, the settings and the chord itself. -/
def words (c : ChordLine) : List String :=
  (c.jump.map (fun n => s!"@slice-{n}")).toList ++ (c.gap.map restText).toList ++
    c.attributes.map Attribute.text ++ ["/".intercalate (c.elements.map Element.text)]

/-- A chord's line as text. -/
def text (c : ChordLine) : String := "\t" ++ " ".intercalate c.words

end ChordLine

/-- A line of a score as text. -/
def Line.text : Line → String
  | blank => ""
  | comment slice => s!"# SLICE {slice}"
  | globals settings => " ".intercalate (settings.map GlobalSetting.text)
  | declare part => part.instrument ++ " \"" ++ part.label ++ "\":"
  | select part => part.label ++ ":"
  | marker slice => s!"\t%slice-{slice}"
  | rest length => "\t" ++ restText length
  | chord line => line.text

end Transcription
