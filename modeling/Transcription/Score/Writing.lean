import Transcription.Key.Spelling
import Transcription.Score.Begin
import Transcription.Score.Chord

/-!
# Writing slices

A slice is written in three steps: its begin, its global settings, and the music of each channel.
Every step goes from one score to the next; a step that fails leaves the score as far as it was
written.
-/

namespace Transcription

/-- A step of writing that may fail, leaving the score as far as it was written. -/
abbrev Writing (α : Type) := EStateM Failure Score α

namespace Writing

/-- A step that cannot fail. -/
def of {α : Type} (f : Score → α × Score) : Writing α := modifyGet f

/-- A step that cannot fail and gives nothing back. -/
def act (f : Score → Score) : Writing Unit := modify f

/-- A computation that may fail. -/
def lift {α : Type} (x : Except Failure α) : Writing α :=
  match x with
  | .ok a => pure a
  | .error e => throw e

/-- A step that may fail and then changes nothing. -/
def check {α : Type} (f : Score → Except Failure (α × Score)) : Writing α := do
  let (a, s) ← lift (f (← get))
  set s
  return a

/-- Declare or select the part that a channel plays at a tick. -/
def changePart (p : Plan) (channel : Int) (lane : Channel) (tick : Int) : Writing PartId := do
  let s ← get
  let (id, isNew, roster) ← lift (s.roster.declare channel (p.recording.programAt channel tick))
  act fun s =>
    { s.addLine (if isNew then .declare id else .select id) with
      roster
      current := some id
      lanes := s.lanes.set lane (some id) lane.isLt }
  return id

/-- The part for a chord: the one its channel plays, if it is selected. -/
def partFor (p : Plan) (channel : Int) (lane : Channel) (tick : Int) : Writing PartId := do
  let s ← get
  match s.current with
  | some id => if s.lanes.get lane = some id then return id else changePart p channel lane tick
  | none => changePart p channel lane tick

/-- Change the attributes of a part to those of the lowest note of a chord, if attributes are
written. -/
def attributes (p : Plan) (id : PartId) (tones : List Score.Tone) : Writing (List Attribute) := do
  match tones with
  | [] => return []
  | tone :: _ =>
    if !p.settings.attributes then return []
    let quants ← of (Score.changeQuant id tone)
    let volumes ← check (Score.changeVelocity id tone)
    return quants ++ volumes

/-- Write one note of a chord. It sets the octave and the length of the next note. -/
def note (id : PartId) (tone : Score.Tone) : Writing Element := do
  let s ← get
  let (name, octave) ← lift (Spelling.spell s.key.fifths tone.pitch)
  let part := s.part id
  let length := tone.written.text
  act fun s => s.modifyPart id (fun part => { part with octave, length })
  return .note (octave - part.octave) name (if length = part.length then none else some length)

/-- Write a chord on a line of its own. -/
def chord (p : Plan) (current : Slice) (channel : Int) (lane : Channel) (tick : Int)
    (next : Option Int) (tones : List Score.Tone) : Writing Unit := do
  let id ← partFor p channel lane tick
  let jump ← of (Score.jump current id)
  let gap ← of (Score.restUpTo p id tick)
  let attributes ← attributes p id tones
  let notes ← tones.mapM (note id)
  let noteEnd := Score.chordEnd tones
  let (rests, chordEnd) ←
    of (Score.restInChord p id tick (Score.cut next current.endTick noteEnd) noteEnd)
  act fun s =>
    (s.addLine (.chord { jump, gap, attributes, elements := notes ++ rests })).advance id chordEnd

/-- Write a group of events: the change of program first, then the notes. -/
def group (p : Plan) (current : Slice) (channel : Int) (lane : Channel) (groups : List Group)
    (g : Group) : Writing Unit := do
  if g.first.change then
    let _ ← changePart p channel lane g.tick
  let next := Group.nextOnset? groups g.tick
  let tones := Score.tones p next g
  if tones = [] then return
  act (Score.countTones channel g.tick tones)
  chord p current channel lane g.tick next tones

/-- Write the music of one channel in a slice, if there is any. -/
def channelBlock (p : Plan) (current : Slice) (channel : Int) : Writing Unit := do
  let lane ← lift (Channel.lane channel)
  let timeline := current.timelines.get lane
  if timeline = [] then return
  act (fun s => s.addLine .blank)
  let groups := Group.divide p.tables.shortestRest timeline
  groups.forM (group p current channel lane groups)

/-- Write a whole slice. -/
def slice (p : Plan) (current : Slice) (number : Int) : Writing Unit := do
  act (Score.beginSlice p current number)
  act (Score.addGlobals current)
  (List.range channelCount).forM (fun channel => channelBlock p current (channel : Int))

/-- Write slices one after the other. -/
def slices (p : Plan) (slices : List Slice) : Writing Unit :=
  slices.zipIdx.forM (fun s => slice p s.1 (s.2 : Int))

end Writing

end Transcription
