import Transcription.Length.Ladder

/-!
# Splitting a duration

A duration is split into entries of a length table, largest first: each entry is used as often as it
fits into what is left. Entries below a given minimum are never used, so what remains at the end is
smaller than the smallest usable entry.
-/

namespace Transcription.LengthTable

/-- Split a duration along a descending list of entries. -/
def splitAlong : List (Int × String) → Int → List (Int × String)
  | [], _ => []
  | e :: rest, duration =>
    if 0 < e.1 ∧ e.1 ≤ duration then
      List.replicate (duration / e.1).toNat e ++ splitAlong rest (duration % e.1)
    else splitAlong rest duration

/-- The entries of at least `least` ticks, largest first. -/
def usable (table : LengthTable) (least : Int) : List (Int × String) :=
  (table.entries.filter (fun e => least ≤ e.1)).reverse

/-- Split a duration into entries of at least `least` ticks, largest first. -/
def split (table : LengthTable) (least duration : Int) : List (Int × String) :=
  splitAlong (usable table least) duration

/-- The ticks of a split duration. -/
def ticks (summands : List (Int × String)) : Int := summands.foldr (fun e n => e.1 + n) 0

/-- A split duration as the text of one length. -/
def text (summands : List (Int × String)) : String := Length.tie (summands.map Prod.snd)

/-- The tokens of given numbers of ticks, all of which have to be in the table. -/
def tokens? (table : LengthTable) (summands : List Int) : Except Failure (List String) :=
  summands.mapM (fun n => match table.get? n with
    | some token => .ok token
    | none => .error (.noSuchLength n))

/-- A split uses entries of the list only. -/
theorem mem_of_mem_splitAlong {entries : List (Int × String)} {duration : Int}
    {e : Int × String} (h : e ∈ splitAlong entries duration) : e ∈ entries := by
  induction entries generalizing duration with
  | nil => simp [splitAlong] at h
  | cons hd tl ih =>
    rw [splitAlong] at h
    split at h
    · rcases List.mem_append.mp h with h | h
      · exact List.mem_cons.mpr (.inl (List.eq_of_mem_replicate h))
      · exact List.mem_cons_of_mem _ (ih h)
    · exact List.mem_cons_of_mem _ (ih h)

end Transcription.LengthTable
