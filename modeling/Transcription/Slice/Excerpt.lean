import Transcription.Slice.Basic

/-!
# Excerpts of the recorded tables

A slice keeps the strikes inside it, and the presses inside it with one more: a pitch that is still
pressed at the end keeps the entry that releases it, so that the end of every note can be found
without looking at other slices.
-/

namespace Transcription.Slice

/-- The strikes inside a slice. Channels without any keep an empty table. -/
def excerptStrikes (s : Slice) (strikes : Table Int Strikes) : Table Int Strikes :=
  strikes.map (fun _ byTick => byTick.filter (fun tick _ => s.contains tick))

/-- The presses of one pitch from `first` on and before `last`, with one more if the pitch is
pressed there, as `pressed` says of the ticks before. -/
def excerptAlong (first last : Int) (pressed : Bool) : List (Int × Bool) → List (Int × Bool)
  | [] => []
  | e :: rest =>
    if e.1 < first then excerptAlong first last pressed rest
    else if e.1 < last then e :: excerptAlong first last e.2 rest
    else if pressed then [e]
    else []

/-- An excerpt takes entries in their order. -/
theorem excerptAlong_sublist (first last : Int) (pressed : Bool) (l : List (Int × Bool)) :
    (excerptAlong first last pressed l).Sublist l := by
  induction l generalizing pressed with
  | nil => exact .slnil
  | cons e rest ih =>
    rw [excerptAlong]
    split
    · exact (ih pressed).cons e
    · split
      · exact (ih e.2).cons_cons e
      · split
        · exact (List.nil_sublist rest).cons_cons e
        · exact List.nil_sublist _

/-- The presses of one pitch inside a slice, with the first one after it if the pitch is still
pressed at the end. -/
def excerptPresses (s : Slice) (presses : Presses) : Presses where
  entries := excerptAlong s.beginTick s.endTick false presses.entries
  ascending := presses.ascending.sublist (excerptAlong_sublist ..)

/-- The presses of all pitches inside a slice. -/
def excerptAllPresses (s : Slice) (presses : Table Int (Table Int Presses)) :
    Table Int (Table Int Presses) :=
  presses.map (fun _ byNote => byNote.map (fun _ byTick => s.excerptPresses byTick))

/-- Keep the strikes inside the slice. -/
def takeStrikes (s : Slice) (strikes : Table Int Strikes) : Except Failure Slice := do
  s.checkOpen
  return { s with strikes := s.excerptStrikes strikes }

/-- Keep the presses inside the slice. -/
def takePresses (s : Slice) (presses : Table Int (Table Int Presses)) : Except Failure Slice := do
  s.checkOpen
  return { s with presses := s.excerptAllPresses presses }

end Transcription.Slice
