import Transcription.Part.Instrument

/-!
# Parts

A part is one program on one channel. While a sequence is written, every part keeps the tick it has
reached and the settings that its notes inherit: octave, length, quantization and velocity.
-/

namespace Transcription

/-- What tells one part from another. -/
structure PartId where
  /-- The channel of the part. -/
  channel : Channel
  /-- The program of the part. -/
  program : Program
  deriving DecidableEq

namespace PartId

/-- The name of the part's instrument. -/
def instrument (id : PartId) : String := id.program.instrument

/-- The name under which a part is selected again. -/
def label (id : PartId) : String := id.program.labelOn id.channel.val

/-- The part of a channel and a program; the channel is checked first. -/
def ofInts (channel program : Int) : Except Failure PartId := do
  let channel ← Channel.ofInt channel
  let program ← Program.ofInt program
  return ⟨channel, program⟩

end PartId

/-- How far a part is written, and what its next note inherits. -/
structure PartState where
  /-- The tick that the part has reached. -/
  cursor : Int := 0
  /-- The octave of the next note. -/
  octave : Int := 4
  /-- The length of the next note. -/
  length : String := "4"
  /-- The pressed share of a note's length, in percent. -/
  quant : Int := 90
  /-- The velocity of the next note. -/
  velocity : Int := 100
  deriving DecidableEq

/-- Move the cursor on to a tick; it never moves back. -/
def PartState.advanceTo (s : PartState) (tick : Int) : PartState :=
  if s.cursor < tick then { s with cursor := tick } else s

/-- After an advance the cursor is at the later of its two places. -/
theorem PartState.cursor_advanceTo (s : PartState) (tick : Int) :
    (s.advanceTo tick).cursor = max s.cursor tick := by
  unfold advanceTo
  split
  · rename_i h
    exact (Int.max_eq_right (Int.le_of_lt h)).symm
  · rename_i h
    exact (Int.max_eq_left (Int.not_lt.mp h)).symm

end Transcription
