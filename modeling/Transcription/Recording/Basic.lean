import Transcription.Failure
import Transcription.Table

/-!
# Recorded sequences

A recorded sequence holds the events of a performance in tables: the notes struck on each channel,
the ticks at which each pitch is pressed or released, the programs chosen on each channel, and the
tempo and key commands that hold for all channels. Striking a note records its release as well; a
strike at the tick of a release wins.
-/

namespace Transcription

/-- The notes struck on one channel: velocity by pitch by tick. -/
abbrev Strikes := Table Int (Table Int Int)

/-- When one pitch is pressed and released: whether it is pressed, by tick. -/
abbrev Presses := Table Int Bool

/-- The name of tempo commands. -/
def tempoCommand : String := "tempo"

/-- The name of key commands. -/
def keyCommand : String := "key"

/-- A recorded sequence. -/
structure Recording where
  /-- The number of ticks in a quarter note. -/
  resolution : Int
  /-- The notes struck, by channel. -/
  strikes : Table Int Strikes := .empty
  /-- When pitches are pressed and released, by channel and pitch. -/
  presses : Table Int (Table Int Presses) := .empty
  /-- The programs chosen, by channel and tick. -/
  programs : Table Int (Table Int Int) := .empty
  /-- The values of global commands, by tick and name. -/
  globals : Table Int (Table String String) := .empty
  /-- Where the sequence ends, if that is said. -/
  endTick : Option Int := none
  deriving DecidableEq

namespace Recording

/-- An empty sequence of a positive resolution. -/
def new (resolution : Int) (endTick : Option Int) : Except Failure Recording :=
  if 0 < resolution then .ok { resolution, endTick } else .error (.resolutionNotPositive resolution)

/-- The strikes on a channel. -/
def strikesOn (r : Recording) (channel : Int) : Strikes := (r.strikes.get? channel).getD .empty

/-- The notes struck on a channel at a tick. -/
def struckAt (r : Recording) (channel tick : Int) : Table Int Int :=
  ((r.strikesOn channel).get? tick).getD .empty

/-- When a pitch is pressed and released on a channel. -/
def pressesOf (r : Recording) (channel note : Int) : Presses :=
  (((r.presses.get? channel).getD .empty).get? note).getD .empty

/-- The programs chosen on a channel. -/
def programsOn (r : Recording) (channel : Int) : Table Int Int :=
  (r.programs.get? channel).getD .empty

/-- The commands at a tick. -/
def commandsAt (r : Recording) (tick : Int) : Table String String :=
  (r.globals.get? tick).getD .empty

/-- Set all the notes that are struck on a channel at a tick. -/
def setStruck (r : Recording) (channel tick : Int) (notes : Table Int Int) : Recording :=
  { r with strikes := r.strikes.insert channel ((r.strikesOn channel).insert tick notes) }

/-- Set when a pitch is pressed and released on a channel. -/
def setPresses (r : Recording) (channel note : Int) (presses : Presses) : Recording :=
  { r with
    presses := r.presses.insert channel
      (((r.presses.get? channel).getD .empty).insert note presses) }

/-- Set all the commands at a tick. -/
def setCommands (r : Recording) (tick : Int) (commands : Table String String) : Recording :=
  { r with globals := r.globals.insert tick commands }

/-- Record that a note is struck. -/
def strike (r : Recording) (channel tick note velocity : Int) : Recording :=
  (r.setStruck channel tick ((r.struckAt channel tick).insert note velocity)).setPresses
    channel note ((r.pressesOf channel note).insert tick true)

/-- Record that a note is released, unless it is struck at the same tick. -/
def release (r : Recording) (channel tick note : Int) : Recording :=
  let presses := r.pressesOf channel note
  if presses.get? tick = some true then r
  else r.setPresses channel note (presses.insert tick false)

/-- Record a note with its release `length` ticks later. -/
def addNote (r : Recording) (channel tick note velocity length : Int) : Recording :=
  (r.strike channel tick note velocity).release channel (tick + length) note

/-- Record that a program is chosen on a channel. -/
def addProgram (r : Recording) (channel tick program : Int) : Recording :=
  { r with programs := r.programs.insert channel ((r.programsOn channel).insert tick program) }

/-- Record a global command. -/
def setCommand (r : Recording) (tick : Int) (name value : String) : Recording :=
  r.setCommands tick ((r.commandsAt tick).insert name value)

/-- Record a global command, which has to be a tempo or a key. -/
def addCommand (r : Recording) (tick : Int) (name value : String) : Except Failure Recording :=
  if name = tempoCommand ∨ name = keyCommand then .ok (r.setCommand tick name value)
  else .error (.unknownCommand name)

/-- The channels on which a note is struck or a program is chosen, ascending. -/
def channels (r : Recording) : List Int :=
  (Table.ofList ((r.strikes.keys ++ r.programs.keys).map (fun c => (c, ())))).keys

/-- The program that is active on a channel at a tick: the last one chosen, or the first program of
all. -/
def programAt (r : Recording) (channel tick : Int) : Int :=
  ((r.programsOn channel).lastUpTo? tick).getD 0

/-- The ticks at which there are global commands, ascending. -/
def globalTicks (r : Recording) : List Int :=
  (r.globals.entries.filter (fun e => !e.2.isEmpty)).map Prod.fst

/-- All ticks at which something is recorded. -/
def ticks (r : Recording) : List Int :=
  r.strikes.values.flatMap Table.keys ++
    r.presses.values.flatMap (fun byNote => byNote.values.flatMap Table.keys) ++
    r.programs.values.flatMap Table.keys ++ r.globals.keys

/-- The tick at which the sequence ends: as it is said, or else after the last recorded tick. -/
def lastTick (r : Recording) : Int :=
  r.endTick.getD (r.ticks.foldl max 0 + 1)

/-- For how long each program of a channel is active: from its tick up to the next change, the last
one without an end. -/
def programSpans (r : Recording) (channel : Int) : List (Int × Option Int) :=
  let ticks := (r.programsOn channel).keys
  ticks.zip ((ticks.drop 1).map some ++ [none])

end Recording

end Transcription
