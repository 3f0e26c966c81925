import Transcription.Length.Token
import Transcription.Table

/-!
# Timelines

The timeline of a channel says what happens at each tick: whether another program is chosen, and
which notes are struck. Ticks are listed in the order in which they were added until the timeline is
sorted.
-/

namespace Transcription

/-- The length that was found for a note when it was written. -/
structure WrittenLength where
  /-- The tokens that are tied into the length. -/
  tokens : List String
  /-- The tick at which a note of this length ends. -/
  endTick : Int
  /-- The pressed share of the length, in percent. -/
  percent : Int
  deriving DecidableEq

/-- A written length as text. -/
def WrittenLength.text (w : WrittenLength) : String := Length.tie w.tokens

/-- A note of a timeline. Its pitch is its key in the table of notes. -/
structure Note where
  /-- How hard the note is struck. -/
  velocity : Int
  /-- The tick at which the note is released or struck again. -/
  offTick : Int
  /-- The length it was written with, if it was written. -/
  written : Option WrittenLength := none
  deriving DecidableEq

/-- What happens on one channel at one tick. -/
structure Event where
  /-- Whether another program is chosen. -/
  change : Bool := false
  /-- The notes struck, by pitch. -/
  notes : Option (Table Int Note) := none
  deriving DecidableEq

/-- The notes struck, none if nothing is said. -/
def Event.struck (e : Event) : Table Int Note := e.notes.getD .empty

/-- What happens on one channel, by tick, in the order in which ticks were added. -/
abbrev Timeline := List (Int × Event)

namespace Timeline

/-- Change what happens at a tick; a tick where nothing happened is added at the end. -/
def alter (tick : Int) (f : Event → Event) : Timeline → Timeline
  | [] => [(tick, f {})]
  | e :: rest => if e.1 = tick then (tick, f e.2) :: rest else e :: alter tick f rest

/-- A timeline by ascending ticks. -/
def sorted (t : Timeline) : Timeline := (Table.ofList t).entries

/-- A sorted timeline is ascending. -/
theorem sorted_pairwise (t : Timeline) : t.sorted.Pairwise (fun a b => a.1 < b.1) :=
  (Table.ofList t).ascending

end Timeline

end Transcription
