import Transcription.Score.Rest
import Transcription.Slice.Basic

/-!
# The begin of a slice

A slice other than the first one is marked on the part that is furthest along, after a rest that
brings this part up to the begin. Other parts jump to the marker when they next sound. Then come the
global settings of the slice, the key before the tempo.
-/

namespace Transcription.Score

/-! ### Markers -/

/-- Bring the part that is furthest along up to the begin of a slice. -/
def restBeforeSlice (p : Plan) (current : Slice) (s : Score) : Score :=
  match s.roster.furthest? with
  | none => s
  | some (id, part) =>
    if current.beginTick ≤ part.cursor then s
    else
      let (length, s) := (s.select id).rest p id (current.beginTick - part.cursor) part.cursor
      let s := match length with
        | some length => s.addLine (.rest length)
        | none => s
      s.advance id current.beginTick

/-- Mark the begin of a slice on the part that is furthest along, if that is where it is. -/
def mark (current : Slice) (s : Score) : Score :=
  match s.roster.furthest? with
  | none => s.addNotice (.noMarker current.beginTick s.slice)
  | some (id, part) =>
    if part.cursor = current.beginTick then
      let s := (s.select id).addLine (.marker s.slice)
      { s with markers := if s.slice ∈ s.markers then s.markers else s.markers ++ [s.slice] }
    else s.addNotice (.noMarker current.beginTick s.slice)

/-- Begin a slice under a number. All slices but the first one are marked. -/
def beginSlice (p : Plan) (current : Slice) (number : Int) (s : Score) : Score :=
  let s := { s with slice := number }
  let s := if 0 < number then (s.restBeforeSlice p current).mark current else s
  let s := s.addLine .blank
  if p.settings.sliceComments then s.addLine (.comment number) else s

/-! ### Global settings -/

/-- The warning that a key command names no key signature. -/
def keyWarning (s : Score) (e : Failure) (tick : Int) : Warning where
  kind := .invalidKeySignature
  message := e.message ++ "; keeping " ++ s.key.descriptor
  tick := some tick

/-- Put the key of a slice in force. A key that is none leaves the last one in force. -/
def changeKey (current : Slice) (s : Score) : List GlobalSetting × Score :=
  match current.globals.get? keyCommand with
  | none => ([], s)
  | some text =>
    match KeySignature.read text with
    | .ok key => ([.key key], { s with key })
    | .error e => ([], s.warn (s.keyWarning e current.beginTick))

/-- The tempo of a slice. -/
def tempoSetting (current : Slice) : List GlobalSetting :=
  ((current.globals.get? tempoCommand).map GlobalSetting.tempo).toList

/-- Write the global settings of a slice in one line, the key before the tempo. -/
def addGlobals (current : Slice) (s : Score) : Score :=
  let (key, s) := s.changeKey current
  let settings := key ++ tempoSetting current
  if settings = [] then s else s.addLine (.globals settings)

end Transcription.Score
