import Transcription.Key.Signature
import Transcription.Recording.Basic
import Transcription.Recording.Tempo

/-!
# MIDI messages

A MIDI file has tracks of messages, each a number of ticks after the one before it. All tracks are
played together; what they strike, release, choose and command is recorded in one sequence, which
ends after the last message.
-/

namespace Transcription.Midi

/-- What a message says. -/
inductive Message where
  /-- A note is struck; without velocity it is released. -/
  | noteOn (channel note velocity : Int)
  /-- A note is released. -/
  | noteOff (channel note : Int)
  /-- A program is chosen. -/
  | program (channel number : Int)
  /-- A tempo, as the microseconds of a quarter note. -/
  | tempo (microseconds : Int)
  /-- A key signature by its name. -/
  | key (name : String)
  /-- A message that is not recorded. -/
  | other
  deriving DecidableEq

/-- A message of a track. -/
structure TrackEvent where
  /-- The ticks since the message before. -/
  delta : Int
  /-- What the message says. -/
  message : Message
  deriving DecidableEq

/-- The contents of a MIDI file. -/
structure File where
  /-- How the tracks belong together; in files of type 2 they are independent. -/
  type : Int
  /-- The number of ticks in a quarter note. -/
  resolution : Int
  /-- The tracks. -/
  tracks : List (List TrackEvent)

/-- Record a message at a tick. -/
def Message.record (tick : Int) (r : Recording) : Message → Except Failure Recording
  | noteOn channel note velocity =>
    .ok (if 0 < velocity then r.strike channel tick note velocity
      else r.release channel tick note)
  | noteOff channel note => .ok (r.release channel tick note)
  | program channel number => .ok (r.addProgram channel tick number)
  | tempo microseconds => do
    return r.setCommand tick tempoCommand (← Tempo.microsecondsText microseconds)
  | key name => do
    return r.setCommand tick keyCommand (← KeySignature.ofName name).descriptor
  | other => .ok r

/-- A sequence while messages are recorded. -/
structure Progress where
  /-- The tick of the last message of the track. -/
  tick : Int
  /-- The last tick of all messages so far. -/
  last : Int
  /-- What is recorded so far. -/
  recording : Recording

/-- Record the next message of a track. -/
def TrackEvent.record (p : Progress) (e : TrackEvent) : Except Failure Progress := do
  let tick := p.tick + e.delta
  return ⟨tick, max p.last tick, ← e.message.record tick p.recording⟩

/-- Record a track from its start. -/
def recordTrack (p : Progress) (track : List TrackEvent) : Except Failure Progress :=
  track.foldlM TrackEvent.record { p with tick := 0 }

/-- The sequence that the tracks of a file play together, with its last tick. -/
def File.recordAll (f : File) : Except Failure (Recording × Int) := do
  if f.type = 2 then .error .independentTracks
  let r ← Recording.new f.resolution none
  let p ← f.tracks.foldlM recordTrack ⟨0, 0, r⟩
  return ({ p.recording with endTick := some (p.last + 1) }, p.last)

/-- The sequence that the tracks of a file play together. -/
def File.record (f : File) : Except Failure Recording := do
  return (← f.recordAll).1

end Transcription.Midi
