import Transcription.Length.Tables
import Transcription.Slice.Timeline

/-!
# Groups of events

Notes that begin within less than the shortest rest are written as one chord. So a timeline is
divided into groups of consecutive events: a group begins with any event, and later ones are folded
into it as long as they bring notes close to its begin and no change of program. Of several strikes
of one pitch in a group the earliest counts.
-/

namespace Transcription

/-- Events that are written together. -/
structure Group where
  /-- The tick at which the group begins. -/
  tick : Int
  /-- What happens at this tick. -/
  first : Event
  /-- The later events of the group. -/
  folded : Timeline := []
  deriving DecidableEq

namespace Group

/-- The events of a group with their ticks. -/
def events (g : Group) : Timeline := (g.tick, g.first) :: g.folded

/-- The notes of a group, each pitch with its earliest strike. -/
def notes (g : Group) : Table Int Note :=
  g.folded.foldl (fun held e => held.orElse e.2.struck) g.first.struck

/-- Whether an event is folded into a group that is still open. -/
def joins (shortest : Int) (g : Group) (e : Int × Event) : Bool :=
  !g.first.struck.isEmpty ∧ !e.2.struck.isEmpty ∧ !e.2.change ∧ e.1 - g.tick < shortest

/-- Divide the events that follow an open group. -/
def divideAfter (shortest : Int) (g : Group) : Timeline → List Group
  | [] => [g]
  | e :: rest =>
    if joins shortest g e then divideAfter shortest { g with folded := g.folded ++ [e] } rest
    else g :: divideAfter shortest ⟨e.1, e.2, []⟩ rest

/-- Divide a timeline into groups. -/
def divide (shortest : Int) : Timeline → List Group
  | [] => []
  | e :: rest => divideAfter shortest ⟨e.1, e.2, []⟩ rest

/-- The groups hold the events of the open group and then those that follow it. -/
theorem flatMap_events_divideAfter (shortest : Int) (g : Group) (t : Timeline) :
    (divideAfter shortest g t).flatMap events = g.events ++ t := by
  induction t generalizing g with
  | nil => simp [divideAfter]
  | cons e rest ih =>
    rw [divideAfter]
    split
    · rw [ih]
      simp [events]
    · rw [List.flatMap_cons, ih]
      simp [events]

/-- Every event is in one group, and the groups keep the order of the events. -/
theorem flatMap_events_divide (shortest : Int) (t : Timeline) :
    (divide shortest t).flatMap events = t := by
  cases t with
  | nil => rfl
  | cons e rest => exact flatMap_events_divideAfter shortest ⟨e.1, e.2, []⟩ rest

/-- The ticks of the groups that have notes. -/
def onsets (groups : List Group) : List Int :=
  (groups.filter (fun g => !g.notes.isEmpty)).map Group.tick

/-- The first tick after `tick` at which a group with notes begins. -/
def nextOnset? (groups : List Group) (tick : Int) : Option Int :=
  (onsets groups).find? (fun t => tick < t)

end Group

/-- The length that a note gets in a group that begins at `tick`, when the next group with notes
begins at `next`. -/
def LengthTables.write (t : LengthTables) (tick : Int) (next : Option Int) (n : Note) :
    WrittenLength :=
  let fit := t.fit (n.offTick - tick) (next.map (fun n => n - tick))
  let summands := t.noteSummands fit.length
  { tokens := summands.map Prod.snd
    endTick := tick + LengthTable.ticks summands
    percent := fit.percent }

/-- Mark the notes of events as written, except for pitches that are written already. -/
def Timeline.markWritten (f : Note → WrittenLength) (isWritten : Int → Bool) : Timeline → Timeline
  | [] => []
  | (tick, e) :: rest =>
    let mark (pitch : Int) (n : Note) : Note :=
      if isWritten pitch then n else { n with written := some (f n) }
    (tick, { e with notes := e.notes.map (Table.map mark) }) ::
      markWritten f (fun pitch => isWritten pitch || e.struck.contains pitch) rest

/-- A timeline after it is written: the earliest strike of each pitch in a group has its length. -/
def Timeline.written (t : LengthTables) (timeline : Timeline) : Timeline :=
  let groups := Group.divide t.shortestRest timeline
  groups.flatMap (fun g =>
    Timeline.markWritten (t.write g.tick (Group.nextOnset? groups g.tick)) (fun _ => false)
      g.events)

end Transcription
