import Transcription.Part.Instrument
import Transcription.Recording.Basic
import Transcription.Slice.Timeline

/-!
# Slices

A slice is a range of ticks between two global commands, from its begin up to but not including its
end. It has one timeline for each channel and its own excerpt of the recorded tables, so that
nothing outside the slice has to be looked at when it is written. Once a slice is frozen it never
changes.
-/

namespace Transcription

/-- A range of ticks with what happens in it. -/
structure Slice where
  /-- The first tick of the slice. -/
  beginTick : Int
  /-- The tick after the last one, or -1 before the slice is closed. -/
  endTick : Int := -1
  /-- The global commands at the begin. -/
  globals : Table String String := .empty
  /-- What happens on each channel. -/
  timelines : Vector Timeline channelCount := .replicate channelCount []
  /-- The notes struck inside the slice. -/
  strikes : Table Int Strikes := .empty
  /-- When pitches are pressed and released, inside the slice and once after it. -/
  presses : Table Int (Table Int Presses) := .empty
  /-- Whether the slice can no longer be changed. -/
  frozen : Bool := false

/-- The lane of a channel number. Negative numbers count back from the last lane. -/
def Channel.lane (n : Int) : Except Failure Channel :=
  if h : 0 ≤ n ∧ n < channelCount then .ok ⟨n.toNat, by omega⟩
  else if h : -channelCount ≤ n ∧ n < 0 then .ok ⟨(n + channelCount).toNat, by omega⟩
  else .error .outOfBounds

namespace Slice

/-- An empty slice, which cannot begin before the sequence. -/
def new (beginTick : Int) : Except Failure Slice :=
  if beginTick < 0 then .error (.negativeBegin beginTick) else .ok { beginTick }

/-- A slice shown by its bounds. -/
def text (s : Slice) : String :=
  let first := s.beginTick
  let last := s.endTick
  s!"Slice(begin={first}, end={last})"

/-- Whether a tick lies inside a slice. -/
def contains (s : Slice) (tick : Int) : Bool := s.beginTick ≤ tick ∧ tick < s.endTick

/-! ### Building -/

/-- Only a slice that is not frozen can be changed. -/
def checkOpen (s : Slice) : Except Failure Unit :=
  if s.frozen then .error (.frozen s.beginTick s.endTick) else .ok ()

/-- Set a global command. -/
def addCommand (s : Slice) (name value : String) : Except Failure Slice := do
  s.checkOpen
  return { s with globals := s.globals.insert name value }

/-- Set the end of a slice. -/
def close (s : Slice) (endTick : Int) : Except Failure Slice := do
  s.checkOpen
  if endTick ≤ s.beginTick then .error (.endNotAfterBegin endTick s.beginTick)
  return { s with endTick }

/-- Change what happens on a channel at a tick. -/
def alterEvent (s : Slice) (tick channel : Int) (f : Event → Event) : Except Failure Slice := do
  s.checkOpen
  let lane ← Channel.lane channel
  return { s with timelines := s.timelines.set lane ((s.timelines.get lane).alter tick f) }

/-- Mark that another program is chosen. -/
def addChange (s : Slice) (tick channel : Int) : Except Failure Slice :=
  s.alterEvent tick channel (fun e => { e with change := true })

/-- Set the notes that are struck. -/
def addNotes (s : Slice) (tick channel : Int) (notes : Table Int Note) : Except Failure Slice :=
  s.alterEvent tick channel (fun e => { e with notes := some notes })

/-- Sort the timelines of a slice and keep it from further changes. -/
def freeze (s : Slice) : Slice :=
  { s with timelines := s.timelines.map Timeline.sorted, frozen := true }

/-! ### Reading -/

/-- What happens on a channel. -/
def timeline (s : Slice) (channel : Int) : Except Failure Timeline := do
  return s.timelines.get (← Channel.lane channel)

/-- Whether anything happens on a channel. -/
def hasEvents (s : Slice) (channel : Int) : Except Failure Bool := do
  return !(← s.timeline channel).isEmpty

/-- The first tick after `tick` at which a note is struck on a channel, within the slice. -/
def nextStrike? (s : Slice) (channel tick : Int) : Option Int :=
  (s.strikes.get? channel).bind (fun byTick => byTick.firstAfter? tick)

/-- The tick at which a pitch that is pressed at `tick` is released or struck again. -/
def offTick? (s : Slice) (channel note tick : Int) : Option Int :=
  ((s.presses.get? channel).bind (fun byNote => byNote.get? note)).bind
    (fun byTick => byTick.firstAfter? tick)

/-- The place of the slice that a tick belongs to: the first one that contains it, or the last one
if none does. -/
def ownerIndex (slices : List Slice) (tick : Int) : Nat :=
  (slices.findIdx? (fun s => s.contains tick)).getD (slices.length - 1)

/-- Whether some slice contains a tick. -/
def anyContains (slices : List Slice) (tick : Int) : Bool := slices.any (fun s => s.contains tick)

end Slice

end Transcription
