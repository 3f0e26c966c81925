import Transcription.Key.Signature

/-!
# Spelling pitches

The notation applies the key signature to bare letters. So a pitch that the signature alters is
written as its bare letter, and a pitch that keeps its letter against the signature is written with
a natural sign, as in `f_`. Each further sharp or flat of a signature changes the names of at most
two pitch classes.
-/

namespace Transcription.Spelling

/-- The names of the twelve pitch classes without sharps and flats in the signature. -/
def plainNames : List String :=
  ["c", "c+", "d", "d+", "e", "f", "f+", "g", "g+", "a", "a+", "b"]

/-- The new names that each further sharp of a signature brings. -/
def sharpSteps : List (List (Nat × String)) :=
  [[(5, "f_"), (6, "f")], [(0, "c_"), (1, "c")], [(7, "g_"), (8, "g")], [(2, "d_"), (3, "d")],
    [(9, "a_"), (10, "a")], [(4, "e_"), (5, "e")], [(11, "b_")]]

/-- The new names that each further flat of a signature brings. -/
def flatSteps : List (List (Nat × String)) :=
  [[(10, "b"), (11, "b_")], [(3, "e"), (4, "e_")], [(8, "a"), (9, "a_")], [(1, "d"), (2, "d_")],
    [(6, "g"), (7, "g_")], [(0, "c_")], [(4, "f"), (5, "f_")]]

/-- The steps that a signature takes. -/
def steps (fifths : Int) : List (List (Nat × String)) :=
  if 0 < fifths then sharpSteps.take fifths.toNat else flatSteps.take (-fifths).toNat

/-- The names of the twelve pitch classes under a signature. -/
def names (fifths : Int) : List String :=
  (steps fifths).flatten.foldl (fun ns step => ns.set step.1 step.2) plainNames

/-- The octave of a pitch; the octave of middle C, pitch 60, is the fourth. -/
def octave (note : Int) : Int := note / 12 - 1

/-- The name of a pitch under a signature. -/
def name (fifths note : Int) : String := (names fifths).getD (note % 12).toNat ""

/-- The name and the octave of a pitch under a signature. -/
def spell (fifths note : Int) : Except Failure (String × Int) :=
  if 0 ≤ note ∧ note ≤ 127 then .ok (name fifths note, octave note)
  else .error (.noteOutOfRange note)

/-- Every signature has twelve names. -/
theorem length_names (fifths : Int) : (names fifths).length = 12 := by
  unfold names
  generalize (steps fifths).flatten = changes
  have h : plainNames.length = 12 := rfl
  revert h
  generalize plainNames = ns
  intro h
  induction changes generalizing ns with
  | nil => exact h
  | cons step rest ih => exact ih _ (by simpa using h)

end Transcription.Spelling
