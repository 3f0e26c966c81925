import Transcription.Table
import Transcription.Length.Token

/-!
# The ladder of lengths

At a given resolution, the number of ticks in a quarter note, every length of the ladder has a
number of ticks, rounded half up. The note table goes from the dotted whole note down to the triplet
of the 1/32 note; the rest table goes on to the plain 1/512 rest, so that gaps between notes are
kept more exactly than the notes themselves.
-/

namespace Transcription

/-- The tokens of a ladder by their numbers of ticks. -/
abbrev LengthTable := Table Int String

namespace Length

/-- The ticks of `factor / divisor` quarter notes, rounded half up. -/
def ticksOf (resolution factor divisor : Int) : Int :=
  (2 * resolution * factor + divisor).fdiv (2 * divisor)

/-- The ticks of `factor / divisor` quarter notes, if there is such a part of a quarter. -/
def ticksOf? (resolution factor divisor : Int) : Except Failure Int :=
  if divisor = 0 then .error .zeroDivisor else .ok (ticksOf resolution factor divisor)

/-- A base length as a part of the quarter note. -/
structure Rung where
  /-- The number of the length's token. -/
  base : Nat
  /-- How many parts of a quarter note the length has. -/
  factor : Int
  /-- Into how many parts the quarter note is divided. -/
  divisor : Int

/-- The base lengths of notes below the whole note, shortest first. -/
def noteRungs : List Rung := [⟨32, 1, 8⟩, ⟨16, 1, 4⟩, ⟨8, 1, 2⟩, ⟨4, 1, 1⟩, ⟨2, 2, 1⟩]

/-- The base lengths that only rests have, longest first. -/
def restRungs : List Rung := [⟨64, 1, 16⟩, ⟨128, 1, 32⟩, ⟨256, 1, 64⟩, ⟨512, 1, 128⟩]

/-- A base length without a dot. -/
def Rung.plain (resolution : Int) (r : Rung) : Int × String :=
  (ticksOf resolution r.factor r.divisor, toString r.base)

/-- A base length with its triplet, its plain and its dotted form. -/
def Rung.forms (resolution : Int) (r : Rung) : List (Int × String) :=
  [(ticksOf resolution (r.factor * 2) (r.divisor * 3), tripletToken r.base),
    r.plain resolution,
    (ticksOf resolution (r.factor * 3) (r.divisor * 2), toString r.base ++ ".")]

/-- The note lengths in the order in which they enter the table. Whole notes have no triplet. -/
def noteLadder (resolution : Int) : List (Int × String) :=
  noteRungs.flatMap (Rung.forms resolution) ++
    [(ticksOf resolution 4 1, "1"), (ticksOf resolution (4 * 3) 2, "1.")]

/-- The rest lengths in the order in which they enter the table. -/
def restLadder (resolution : Int) : List (Int × String) :=
  noteLadder resolution ++ restRungs.map (Rung.plain resolution)

/-- The table of a ladder: lengths of no tick are left out, and of two lengths with equal ticks the
later one stays. -/
def tableOf (ladder : List (Int × String)) : LengthTable :=
  Table.ofList (ladder.filter (fun e => 0 < e.1))

/-- The note lengths at a resolution. -/
def noteLengths (resolution : Int) : LengthTable := tableOf (noteLadder resolution)

/-- The rest lengths at a resolution. -/
def restLengths (resolution : Int) : LengthTable := tableOf (restLadder resolution)

/-- A ladder needs a positive resolution. -/
def checkResolution (resolution : Int) : Except Failure Unit :=
  if 0 < resolution then .ok () else .error (.resolutionNotPositive resolution)

/-- With a positive divisor, rounding half up is division with a remainder. -/
theorem ticksOf_of_pos {divisor : Int} (h : 0 < divisor) (resolution factor : Int) :
    ticksOf resolution factor divisor =
      (2 * resolution * factor + divisor) / (2 * divisor) := by
  rw [ticksOf, Int.fdiv_eq_ediv_of_nonneg _ (by omega)]

end Length

end Transcription
