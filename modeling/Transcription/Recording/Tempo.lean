import Transcription.Failure
import Transcription.Number.Binary64
import Transcription.Number.Significant

/-!
# Tempo texts

A tempo in quarter notes per minute is rounded to hundredths and then written as a whole number if
it is one, and with six significant digits otherwise. The rounded value is again the nearest number
of double precision.
-/

namespace Transcription.Tempo

open Number (Binary64)

/-- The number nearest to the hundredths of a finite one. -/
def rounded (q : Rat) : Binary64 := Binary64.nearest (Number.roundToMultiple 100 q)

/-- A finite tempo that is rounded already. -/
def finiteText (q : Rat) : String :=
  if q.den = 1 then toString q.num else Number.Significant.text q

/-- A tempo as text. -/
def text : Binary64 → Except Failure String
  | .nan => .error .notANumber
  | .infinite _ => .error .infiniteNumber
  | .finite q =>
    match rounded q with
    | .finite r => .ok (finiteText r)
    | .infinite _ => .error .infiniteNumber
    | .nan => .error .notANumber

/-- The number of double precision nearest to an integer. -/
def ofInt (n : Int) : Except Failure Binary64 :=
  match Binary64.nearest n with
  | .infinite _ => .error .tooLarge
  | x => .ok x

/-- A whole tempo as text. -/
def intText (n : Int) : Except Failure String := do text (← ofInt n)

/-- The microseconds of one minute. -/
def microsecondsPerMinute : Nat := 60000000

/-- The tempo of quarter notes that last a number of microseconds. -/
def ofMicroseconds (microseconds : Int) : Except Failure Binary64 := do
  match ← ofInt microseconds with
  | .finite q =>
    if q = 0 then .error .zeroTempo else .ok (Binary64.nearest (microsecondsPerMinute / q))
  | x => .ok x

/-- The text of the tempo of quarter notes that last a number of microseconds. -/
def microsecondsText (microseconds : Int) : Except Failure String := do
  text (← ofMicroseconds microseconds)

end Transcription.Tempo
