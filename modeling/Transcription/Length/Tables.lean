import Transcription.Length.Split

/-!
# Length tables of a sequence

A sequence is written with one note table and one rest table of its resolution. Gaps shorter than
the shortest usable rest are not written, and a held note gets the length nearest below its press,
or the gap to the next note when that is a length of its own.
-/

namespace Transcription

/-- The lengths a sequence is written with. -/
structure LengthTables where
  /-- The ticks of a quarter note. -/
  resolution : Int
  /-- The lengths of notes. -/
  notes : LengthTable
  /-- The lengths of rests. -/
  rests : LengthTable
  /-- No rest entry below this number of ticks is used. -/
  minRest : Int
  deriving DecidableEq

/-- The length given to a held note. -/
structure NoteFit where
  /-- The length in ticks. -/
  length : Int
  /-- The pressed share of the length in percent. -/
  percent : Int
  deriving DecidableEq

namespace LengthTables

/-- The tables of a resolution. Without a choice, rests go down to the 1/256 note. -/
def ofResolution (resolution : Int) (minRest : Option Int) : LengthTables where
  resolution := resolution
  notes := Length.noteLengths resolution
  rests := Length.restLengths resolution
  minRest := minRest.getD (Length.ticksOf resolution 1 64)

/-- The shortest note length. -/
def shortestNote (t : LengthTables) : Int := t.notes.minKey?.getD 0

/-- The shortest gap that is written as a rest. -/
def shortestRest (t : LengthTables) : Int :=
  (t.rests.filter (fun ticks _ => t.minRest ≤ ticks)).minKey?.getD t.minRest

/-- Split a duration into note lengths. -/
def noteSummands (t : LengthTables) (ticks : Int) : List (Int × String) :=
  LengthTable.split t.notes 0 ticks

/-- Split a gap into rest lengths. -/
def restSummands (t : LengthTables) (ticks : Int) : List (Int × String) :=
  LengthTable.split t.rests t.minRest ticks

/-- The ticks given to a note that is held for `press` ticks, with the next note `gap` ticks away.
A gap that is itself a length and not shorter than the press is taken whole. -/
def lengthOf (t : LengthTables) (press : Int) (gap : Option Int) : Int :=
  match gap.filter (fun g => t.notes.contains g ∧ press ≤ g) with
  | some g => g
  | none =>
    if press < t.shortestNote then t.shortestNote
    else LengthTable.ticks (t.noteSummands press)

/-- The share of `length` that `press` is, in percent, rounded half up. -/
def percentOf (press length : Int) : Int := (press * 200 + length) / (2 * length)

/-- The length given to a held note, with the pressed share of it. -/
def fit (t : LengthTables) (press : Int) (gap : Option Int) : NoteFit :=
  let length := t.lengthOf press gap
  if length ≤ 0 then ⟨0, 0⟩ else ⟨length, percentOf press length⟩

/-- The length given to a held note, if there are note lengths at all. -/
def fit? (t : LengthTables) (press : Int) (gap : Option Int) : Except Failure NoteFit :=
  if t.notes.isEmpty then .error .noLengths else .ok (t.fit press gap)

end LengthTables

end Transcription
