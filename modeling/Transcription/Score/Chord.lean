import Transcription.Number.Binary64
import Transcription.Score.Group
import Transcription.Score.Rest
import Transcription.Slice.Basic

/-!
# Chords in a score

Before a chord its part jumps to the marker of the slice or rests up to the chord. A chord that
would reach past the next one, or past the end of the slice, is left early by a rest inside it,
which is shorter than its notes.
-/

namespace Transcription.Score

/-- A note with the length it is written with. -/
structure Tone where
  /-- The pitch of the note. -/
  pitch : Int
  /-- How hard it is struck. -/
  velocity : Int
  /-- How long it is held. -/
  held : Int
  /-- Its length. -/
  written : WrittenLength

/-- The notes of a group with their lengths, from the lowest one up. -/
def tones (p : Plan) (next : Option Int) (g : Group) : List Tone :=
  g.notes.entries.map (fun e =>
    { pitch := e.1
      velocity := e.2.velocity
      held := e.2.offTick - g.tick
      written := p.tables.write g.tick next e.2 })

/-- The warning that a note is too short for any length. -/
def noteWarning (channel tick : Int) (tone : Tone) : Warning :=
  let pitch := tone.pitch
  let held := tone.held
  { kind := .unrepresentableDuration
    message := s!"note {pitch} of {held} ticks is shorter than any note length"
    channel := some channel
    tick := some tick }

/-- Count a note with its length. -/
def countTone (channel tick : Int) (s : Score) (tone : Tone) : Score :=
  let s := if tone.written.tokens = [] then s.warn (noteWarning channel tick tone) else s
  { s with statistics := s.statistics.count channel .note tone.written.tokens }

/-- Count the notes of a chord. -/
def countTones (channel tick : Int) (tones : List Tone) (s : Score) : Score :=
  tones.foldl (countTone channel tick) s

/-- Jump to the marker of the slice, if the part is not there yet and there is one. -/
def jump (current : Slice) (id : PartId) (s : Score) : Option Int × Score :=
  if (s.part id).cursor < current.beginTick ∧ s.slice ∈ s.markers then
    (some s.slice, s.modifyPart id (fun part => { part with cursor := current.beginTick }))
  else (none, s)

/-- Rest up to a tick. -/
def restUpTo (p : Plan) (id : PartId) (tick : Int) (s : Score) : Option String × Score :=
  let cursor := (s.part id).cursor
  if cursor < tick then
    let (length, s) := s.rest p id (tick - cursor) cursor
    (length, s.advance id tick)
  else (none, s)

/-- The volume of a velocity in percent: the quotient in double precision, rounded half to even. -/
def volume (velocity : Int) : Except Failure Int :=
  match Number.Binary64.nearest ((velocity * 100 : Int) / 127) with
  | .finite q => .ok (Number.roundHalfEven q)
  | _ => .error .quotientTooLarge

/-- Change the quantization of a part to that of a note. -/
def changeQuant (id : PartId) (tone : Tone) (s : Score) : List Attribute × Score :=
  let quant := max 1 tone.written.percent
  if quant = (s.part id).quant then ([], s)
  else ([.quant quant], s.modifyPart id (fun part => { part with quant }))

/-- Change the velocity of a part to that of a note. -/
def changeVelocity (id : PartId) (tone : Tone) (s : Score) :
    Except Failure (List Attribute × Score) := do
  if tone.velocity = (s.part id).velocity then return ([], s)
  let percent ← volume tone.velocity
  return ([.volume percent],
    s.modifyPart id (fun part => { part with velocity := tone.velocity }))

/-- Where a chord has to be left before its notes end: at the next chord or at the end of the
slice, whichever comes first. -/
def cut (next : Option Int) (endTick chordEnd : Int) : Option Int :=
  let cuts := (next.toList ++ [endTick]).filter (fun t => t < chordEnd)
  cuts.min?

/-- The tick at which the shortest note of a chord ends. -/
def chordEnd (tones : List Tone) : Int := ((tones.map (fun t => t.written.endTick)).min?).getD 0

/-- Rest inside a chord up to the place where it is left. Without such a rest the part goes on at
the end of the shortest note. -/
def restInChord (p : Plan) (id : PartId) (tick : Int) (cut : Option Int) (chordEnd : Int)
    (s : Score) : (List Element × Int) × Score :=
  match cut with
  | none => (([], chordEnd), s)
  | some cut =>
    match s.rest p id (cut - tick) tick with
    | (some length, s) => (([.rest length], cut), s)
    | (none, s) => (([], chordEnd), s)

end Transcription.Score
