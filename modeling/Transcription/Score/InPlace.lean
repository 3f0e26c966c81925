import Transcription.Transcript

/-!
# Writing in place

The notes of a slice are shared by all who write it. Before the chord of a group is written, each of
its notes takes the length that was found for it, whatever length an earlier writing left there; the
chord then reads the lengths back from its notes. So writing slices changes them, and here every
step says what it leaves behind.
-/

namespace Transcription

/-- The notes struck at a tick, each with the tick. -/
def Event.placed (tick : Int) (e : Event) : Table Int (Int × Note) :=
  e.struck.map (fun _ n => (tick, n))

/-- The notes of a group, each pitch with its earliest strike and the tick of it. -/
def Group.placed (g : Group) : Table Int (Int × Note) :=
  g.folded.foldl (fun held e => held.orElse (e.2.placed e.1)) (g.first.placed g.tick)

/-- Change the notes struck, each as its pitch says. -/
def Event.mapNotes (f : Int → Note → Note) (e : Event) : Event :=
  { e with notes := e.notes.map (Table.map f) }

namespace Timeline

/-- A note of a timeline. -/
def note? (t : Timeline) (tick pitch : Int) : Option Note :=
  (t.find? (fun e => e.1 = tick)).bind (fun e => e.2.struck.get? pitch)

/-- Change the notes of a timeline, each as its tick and its pitch say. -/
def mapNotes (f : Int → Int → Note → Note) (t : Timeline) : Timeline :=
  t.map (fun e => (e.1, e.2.mapNotes (f e.1)))

/-- Set the length of a note. -/
def setWritten (t : Timeline) (tick pitch : Int) (w : WrittenLength) : Timeline :=
  t.mapNotes (fun tick' pitch' n =>
    if tick' = tick ∧ pitch' = pitch then { n with written := some w } else n)

end Timeline

/-- What writing slices in place leaves behind. -/
structure Rewriting where
  /-- The text. -/
  text : String
  /-- What was noticed in the writing. -/
  notices : List Notice
  /-- What was counted. -/
  statistics : Statistics
  /-- The slices, with the lengths that their notes were written with. -/
  slices : List Slice

namespace InPlace

open Writing

/-- Read a note of a timeline. -/
def readNote (t : Timeline) (tick pitch : Int) : Except Failure Note :=
  match t.note? tick pitch with
  | some n => .ok n
  | none => .error .lengthMissing

/-- Find the length of a note of a chord at `tick`, count it, and put it into the note. -/
def resolveNote (p : Plan) (channel tick : Int) (next : Option Int) (t : Timeline)
    (e : Int × Int) : Writing Timeline := do
  let n ← lift (readNote t e.2 e.1)
  let written := p.tables.write tick next n
  act (fun s => Score.countTone channel tick s
    { pitch := e.1, velocity := n.velocity, held := n.offTick - tick, written })
  return t.setWritten e.2 e.1 written

/-- Read a note with its length back. -/
def readTone (t : Timeline) (tick : Int) (e : Int × Int) : Except Failure Score.Tone := do
  let n ← readNote t e.2 e.1
  match n.written with
  | some written =>
    return { pitch := e.1, velocity := n.velocity, held := n.offTick - tick, written }
  | none => .error .lengthMissing

/-- Write a group of events: the change of program first, then the lengths of its notes, and last
the chord. -/
def group (p : Plan) (current : Slice) (channel : Int) (lane : Channel) (groups : List Group)
    (t : Timeline) (g : Group) : Writing Timeline := do
  if g.first.change then
    let _ ← changePart p channel lane g.tick
  let next := Group.nextOnset? groups g.tick
  let places := g.placed.entries.map (fun e => (e.1, e.2.1))
  if places = [] then return t
  let t ← places.foldlM (resolveNote p channel g.tick next) t
  let tones ← lift (places.mapM (readTone t g.tick))
  chord p current channel lane g.tick next tones
  return t

/-- Write the music of one channel in a slice, if there is any. -/
def channelBlock (p : Plan) (current : Slice) (channel : Int) : Writing Slice := do
  let lane ← lift (Channel.lane channel)
  let timeline := current.timelines.get lane
  if timeline = [] then return current
  act (fun s => s.addLine .blank)
  let groups := Group.divide p.tables.shortestRest timeline
  let timeline ← groups.foldlM (group p current channel lane groups) timeline
  return { current with timelines := current.timelines.set lane timeline lane.isLt }

/-- Write a whole slice. -/
def slice (p : Plan) (current : Slice) (number : Int) : Writing Slice := do
  act (Score.beginSlice p current number)
  act (Score.addGlobals current)
  (List.range channelCount).foldlM (fun s (channel : Nat) => channelBlock p s channel) current

/-- Write slices one after the other. -/
def slices (p : Plan) (slices : List Slice) : Writing (List Slice) :=
  slices.zipIdx.mapM (fun s => slice p s.1 (s.2 : Int))

/-- Write slices of a sequence that are there already, whatever was written of them before. -/
def render (r : Recording) (settings : Settings) (slices : List Slice) :
    Except Failure Rewriting :=
  let plan := Plan.of r settings
  match (InPlace.slices plan slices).run {} with
  | .ok slices s =>
    .ok { text := plan.textOf s, notices := s.notices.toList, statistics := s.statistics, slices }
  | .error e _ => .error e

/-- Cut a sequence into slices and write them. -/
def transcribe (r : Recording) (settings : Settings) : Except Failure Transcript := do
  let w ← render r settings (← r.slices)
  return {
    text := w.text
    cutWarnings := r.cutWarnings
    notices := w.notices
    statistics := w.statistics
    slices := w.slices }

/-- Write slices with several settings, one after the other. -/
def renderAll (r : Recording) (settings : List Settings) (slices : List Slice) :
    Except Failure (List Slice) :=
  settings.foldlM (fun slices settings => return (← render r settings slices).slices) slices

end InPlace

end Transcription
