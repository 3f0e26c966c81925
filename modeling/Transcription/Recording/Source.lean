import Transcription.Midi.Message

/-!
# Where recordings come from

A recording is made by adding notes, programs and commands to an empty one, in any order, or from
the tracks of a file. An addition that is refused leaves the recording as it is.
-/

namespace Transcription

/-- Something that is added to a recording. -/
inductive Recording.Addition where
  /-- A note with its length. -/
  | note (channel tick pitch velocity length : Int)
  /-- A program is chosen. -/
  | program (channel tick number : Int)
  /-- A global command. -/
  | command (tick : Int) (name value : String)
  deriving DecidableEq

namespace Recording

/-- Add something to a recording. Only commands can be refused. -/
def Addition.addTo (r : Recording) : Addition → Except Failure Recording
  | note channel tick pitch velocity length => .ok (r.addNote channel tick pitch velocity length)
  | program channel tick number => .ok (r.addProgram channel tick number)
  | command tick name value => r.addCommand tick name value

/-- Add one thing after the other, passing over what is refused. -/
def addAll (r : Recording) (additions : List Addition) : Recording :=
  additions.foldl (fun r a => (a.addTo r).toOption.getD r) r

end Recording

/-- What a recording is made of. -/
inductive Source where
  /-- Additions to the empty recording of a resolution, with its end if that is said. -/
  | additions (resolution : Int) (endTick : Option Int) (added : List Recording.Addition)
  /-- The tracks of a file. -/
  | tracks (f : Midi.File)

/-- Make a recording. -/
def Source.record : Source → Except Failure Recording
  | additions resolution endTick added => do
    return (← Recording.new resolution endTick).addAll added
  | tracks f => f.record

end Transcription
