import Transcription.Score.Writing
import Transcription.Slice.Cutting

/-!
# Transcripts

To transcribe a sequence is to cut it into slices and to write these one after the other. The
transcript holds the text, what was noticed on the way and what was counted, and the slices with the
lengths that their notes were written with.
-/

namespace Transcription

/-- A slice with the lengths that its notes are written with. -/
def Slice.written (t : LengthTables) (s : Slice) : Slice :=
  { s with timelines := s.timelines.map (Timeline.written t) }

/-- A sequence in writing. -/
structure Transcript where
  /-- The text. -/
  text : String
  /-- The warnings of cutting the sequence. -/
  cutWarnings : List Warning
  /-- What was noticed in the writing. -/
  notices : List Notice
  /-- What was counted. -/
  statistics : Statistics
  /-- The slices of the sequence. -/
  slices : List Slice

/-- All warnings, those of cutting the sequence first. -/
def Transcript.warnings (t : Transcript) : List Warning :=
  t.cutWarnings ++ t.notices.filterMap Notice.warning?

/-- The score of slices. -/
def Plan.score (p : Plan) (slices : List Slice) : Except Failure Score :=
  match (Writing.slices p slices).run {} with
  | .ok () s => .ok s
  | .error e _ => .error e

/-- The text of a score, followed by the statistics if they are wanted. -/
def Plan.textOf (p : Plan) (s : Score) : String :=
  if p.settings.statistics then s.text ++ "\n" ++ "\n".intercalate s.statistics.lines ++ "\n"
  else s.text

namespace Recording

/-- Write slices of a sequence that are there already. -/
def render (r : Recording) (settings : Settings) (slices : List Slice) : Except Failure String := do
  let plan := Plan.of r settings
  return plan.textOf (← plan.score slices)

/-- Cut a sequence into slices and write them. -/
def transcribe (r : Recording) (settings : Settings) : Except Failure Transcript := do
  let slices ← r.slices
  let plan := Plan.of r settings
  let score ← plan.score slices
  return {
    text := plan.textOf score
    cutWarnings := r.cutWarnings
    notices := score.notices.toList
    statistics := score.statistics
    slices := slices.map (Slice.written plan.tables) }

end Recording

end Transcription
