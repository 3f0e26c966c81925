import Transcription.Length.Tables
import Transcription.Part.Roster
import Transcription.Recording.Basic
import Transcription.Score.Line
import Transcription.Settings
import Transcription.Statistics
import Transcription.Warning

/-!
# Scores

A score is what has been written so far, together with all that the next line depends on: the
declared parts with their states, the part that is selected, the part that each channel plays, the
key signature in force and the markers that parts can jump to.
-/

namespace Transcription

/-- What is noticed while a score is written. -/
inductive Notice where
  /-- Something could not be written as it was recorded. -/
  | warning (w : Warning)
  /-- No part has reached the begin of a slice, so the slice has no marker. -/
  | noMarker (tick slice : Int)
  deriving DecidableEq

/-- The warning that a notice is, if it is one. -/
def Notice.warning? : Notice → Option Warning
  | warning w => some w
  | noMarker .. => none

/-- A score in the course of its writing. -/
structure Score where
  /-- The lines written so far. -/
  lines : Array Line := #[]
  /-- The declared parts. -/
  roster : Roster := .empty
  /-- The part that each channel plays. -/
  lanes : Vector (Option PartId) channelCount := .replicate channelCount none
  /-- The selected part. -/
  current : Option PartId := none
  /-- The key signature in force. -/
  key : KeySignature := .cMajor
  /-- The number of the slice that is being written. -/
  slice : Int := 0
  /-- The slices whose begin is marked. -/
  markers : List Int := []
  /-- What was noticed so far. -/
  notices : Array Notice := #[]
  /-- What was counted so far. -/
  statistics : Statistics := {}

namespace Score

/-- The warnings so far. -/
def warnings (s : Score) : List Warning := s.notices.toList.filterMap Notice.warning?

/-- The state of a part. -/
def part (s : Score) (id : PartId) : PartState := s.roster.state id

/-- Write a line. -/
def addLine (s : Score) (line : Line) : Score := { s with lines := s.lines.push line }

/-- Notice something. -/
def addNotice (s : Score) (notice : Notice) : Score := { s with notices := s.notices.push notice }

/-- Warn of something. -/
def warn (s : Score) (w : Warning) : Score := s.addNotice (.warning w)

/-- Change the state of a part. -/
def modifyPart (s : Score) (id : PartId) (f : PartState → PartState) : Score :=
  { s with roster := s.roster.modify id f }

/-- Move the cursor of a part on to a tick. -/
def advance (s : Score) (id : PartId) (tick : Int) : Score :=
  s.modifyPart id (fun p => p.advanceTo tick)

/-- Select a part, with a line of its own unless it is selected. -/
def select (s : Score) (id : PartId) : Score :=
  if s.current = some id then s else { s.addLine (.select id) with current := some id }

/-- The lines without the empty ones at both ends, each ended. -/
def text (s : Score) : String :=
  let cs := ("\n".intercalate (s.lines.toList.map Line.text)).toList
  let trimmed := ((cs.dropWhile (· = '\n')).reverse.dropWhile (· = '\n')).reverse
  String.ofList trimmed ++ "\n"

end Score

/-- What a score is written from, apart from the slices. -/
structure Plan where
  /-- The sequence to which the slices belong. -/
  recording : Recording
  /-- The lengths to be used. -/
  tables : LengthTables
  /-- What the score shows. -/
  settings : Settings

/-- The plan for a sequence. -/
def Plan.of (recording : Recording) (settings : Settings) : Plan where
  recording
  tables := .ofResolution recording.resolution settings.minRest
  settings

end Transcription
