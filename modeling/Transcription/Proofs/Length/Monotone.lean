import Transcription.Proofs.Length.Largest

/-!
# Longer durations are split into longer lengths

A split rounds a duration down to what its lengths can fill. Neighbouring durations may be split in
quite different ways, yet the longer one never fills less, and what a split fills is split in the
same way again. So a note that is pressed longer never gets a shorter length.
-/

namespace Transcription

namespace LengthTable

/-- A longer duration is never filled less. If the first entry fits more often into it, this makes
up for all that the other entries fill of the shorter one. -/
theorem ticks_splitAlong_mono (entries : List (Int × String)) {duration duration' : Int}
    (hle : duration ≤ duration') :
    ticks (splitAlong entries duration) ≤ ticks (splitAlong entries duration') := by
  rcases Int.lt_or_le duration 0 with hneg | hduration
  · rw [splitAlong_of_nonpos (Int.le_of_lt hneg), ticks_nil]
    exact ticks_splitAlong_nonneg entries duration'
  induction entries generalizing duration duration' with
  | nil => exact Int.le_refl _
  | cons e rest ih =>
    by_cases hpos : 0 < e.1
    · have hdiv := Int.mul_ediv_add_emod duration e.1
      have hdiv' := Int.mul_ediv_add_emod duration' e.1
      have hmod := Int.emod_nonneg duration (show e.1 ≠ 0 by omega)
      rw [ticks_splitAlong_cons rest hpos hduration, ticks_splitAlong_cons rest hpos (by omega)]
      rcases Int.lt_or_eq_of_le (Int.ediv_le_ediv hpos hle) with hmore | hsame
      · have hlt := Int.emod_lt_of_pos duration hpos
        have hfilled := ticks_splitAlong_le rest hmod
        have hfilled' := ticks_splitAlong_nonneg rest (duration' % e.1)
        have hstep : e.1 * (duration / e.1 + 1) ≤ e.1 * (duration' / e.1) :=
          Int.mul_le_mul_of_nonneg_left (by omega) (Int.le_of_lt hpos)
        rw [Int.mul_add, Int.mul_one] at hstep
        omega
      · rw [hsame] at hdiv ⊢
        exact Int.add_le_add_left (ih (by omega) hmod) _
    · simp only [splitAlong_cons_of_nonpos rest hpos]
      exact ih hle hduration

/-- What a split fills is split in the same way. -/
theorem splitAlong_ticks (entries : List (Int × String)) (duration : Int) :
    splitAlong entries (ticks (splitAlong entries duration)) = splitAlong entries duration := by
  rcases Int.lt_or_le duration 0 with hneg | hduration
  · rw [splitAlong_of_nonpos (Int.le_of_lt hneg), ticks_nil, splitAlong_of_nonpos (Int.le_refl 0)]
  induction entries generalizing duration with
  | nil => rfl
  | cons e rest ih =>
    by_cases hpos : 0 < e.1
    · have hmod := Int.emod_nonneg duration (show e.1 ≠ 0 by omega)
      have hlt := Int.emod_lt_of_pos duration hpos
      have hbound := ticks_splitAlong_le rest hmod
      have hnonneg := ticks_splitAlong_nonneg rest (duration % e.1)
      have hfilled := ticks_splitAlong_nonneg (e :: rest) duration
      have hticks := ticks_splitAlong_cons rest hpos hduration
      have hquot : ticks (splitAlong (e :: rest) duration) / e.1 = duration / e.1 := by
        rw [hticks, Int.mul_add_ediv_left _ _ (by omega),
          Int.ediv_eq_zero_of_lt hnonneg (by omega), Int.add_zero]
      have hrem : ticks (splitAlong (e :: rest) duration) % e.1 =
          ticks (splitAlong rest (duration % e.1)) := by
        rw [hticks, Int.mul_add_emod_self_left, Int.emod_eq_of_lt hnonneg (by omega)]
      rw [splitAlong_cons_of_pos rest hpos hfilled, hquot, hrem, ih _ hmod,
        ← splitAlong_cons_of_pos rest hpos hduration]
    · simp only [splitAlong_cons_of_nonpos rest hpos]
      exact ih duration hduration

/-- A longer duration is never split into less. -/
theorem ticks_split_mono (table : LengthTable) (least : Int) {duration duration' : Int}
    (hle : duration ≤ duration') :
    ticks (split table least duration) ≤ ticks (split table least duration') :=
  ticks_splitAlong_mono _ hle

/-- A split is a split of what it fills. -/
theorem split_ticks_split (table : LengthTable) (least duration : Int) :
    split table least (ticks (split table least duration)) = split table least duration :=
  splitAlong_ticks _ duration

/-- A length of the table is split into itself. -/
theorem split_of_mem {table : LengthTable} {least : Int} {e : Int × String}
    (he : e ∈ table.entries) (hleast : least ≤ e.1) (hpos : 0 < e.1) :
    split table least e.1 = [e] := by
  have hsorted : (usable table least).Pairwise (fun a b => b.1 < a.1) :=
    List.pairwise_reverse.mpr (table.ascending.filter _)
  rw [split, splitAlong_eq_cons hsorted (mem_usable.mpr ⟨he, hleast⟩) hpos (Int.le_refl _)
    (fun _ _ hle => hle), Int.sub_self, splitAlong_of_nonpos (Int.le_refl 0)]

end LengthTable

namespace LengthTables

variable {t : LengthTables} {duration : Int}

/-- A length of the table is filled by its own split. -/
theorem Proper.ticks_noteSummands (h : t.Proper) (hmem : duration ∈ t.notes.keys) :
    LengthTable.ticks (t.noteSummands duration) = duration := by
  obtain ⟨e, he, rfl⟩ := List.mem_map.mp hmem
  have hpos := h.notes_ofLadder.pos he
  rw [noteSummands, LengthTable.split_of_mem he (Int.le_of_lt hpos) hpos, LengthTable.ticks_cons,
    LengthTable.ticks_nil, Int.add_zero]

/-- The shortest note is the least of the note lengths. -/
theorem Proper.isLeast_shortestNote (h : t.Proper) :
    IsLeast {k | k ∈ t.notes.keys} t.shortestNote := by
  obtain ⟨e, he, heq, _, hleast⟩ := h.shortestNote
  exact ⟨heq ▸ List.mem_map_of_mem he, hleast⟩

/-- A note that takes no gap gets what the split of its press fills, but at least the shortest
note. -/
theorem Proper.lengthOf_eq_max (h : t.Proper) {press : Int} {gap : Option Int}
    (hfree : ¬ ∃ g, t.Taken press gap g) :
    t.lengthOf press gap = max t.shortestNote (LengthTable.ticks (t.noteSummands press)) := by
  have hshortest := h.ticks_noteSummands h.isLeast_shortestNote.1
  rcases t.lengthOf_cases press gap with ⟨g, hg, _⟩ | ⟨_, ⟨hshort, hlength⟩ | ⟨hlong, hlength⟩⟩
  · exact absurd ⟨g, hg⟩ hfree
  · have hfilled : LengthTable.ticks (t.noteSummands press) ≤ t.shortestNote :=
      hshortest ▸ LengthTable.ticks_split_mono t.notes 0 (Int.le_of_lt hshort)
    omega
  · have hfilled : t.shortestNote ≤ LengthTable.ticks (t.noteSummands press) :=
      hshortest ▸ LengthTable.ticks_split_mono t.notes 0 hlong
    omega

/-- A longer press never gets less. -/
theorem Proper.lengthOf_mono (h : t.Proper) (gap : Option Int) {press press' : Int}
    (hle : press ≤ press') : t.lengthOf press gap ≤ t.lengthOf press' gap := by
  rcases t.lengthOf_cases press' gap with ⟨g, ⟨hgap, hmem, hg⟩, hlength'⟩ | ⟨hfree', _⟩
  · -- the longer press takes the gap, so the shorter one takes it as well
    rcases t.lengthOf_cases press gap with ⟨g', ⟨hgap', _⟩, hlength⟩ | ⟨hfree, _⟩
    · rw [hlength, hlength', Option.some.inj (hgap'.symm.trans hgap)]
    · exact absurd ⟨g, hgap, hmem, by omega⟩ hfree
  · rw [h.lengthOf_eq_max hfree']
    rcases t.lengthOf_cases press gap with ⟨g, ⟨hgap, hmem, _⟩, hlength⟩ | ⟨hfree, _⟩
    · have hover : g ≤ press' := by
        by_contra hunder
        exact hfree' ⟨g, hgap, hmem, by omega⟩
      have hfilled : g ≤ LengthTable.ticks (t.noteSummands press') :=
        h.ticks_noteSummands hmem ▸ LengthTable.ticks_split_mono t.notes 0 hover
      omega
    · have hfilled : LengthTable.ticks (t.noteSummands press) ≤
          LengthTable.ticks (t.noteSummands press') := LengthTable.ticks_split_mono t.notes 0 hle
      rw [h.lengthOf_eq_max hfree]
      omega

/-- **Quantization is monotone and stable.** With any table and any minimum, a longer duration is
never split into less, and what a split fills is split in the same way. Every note gets a length,
and with the same gap after it a longer press never gets a shorter one. -/
theorem Proper.quantization_monotone (h : t.Proper) :
    (∀ (table : LengthTable) (least : Int),
        (∀ duration duration', duration ≤ duration' →
          LengthTable.ticks (table.split least duration) ≤
            LengthTable.ticks (table.split least duration')) ∧
          ∀ duration, table.split least (LengthTable.ticks (table.split least duration)) =
            table.split least duration) ∧
      ∀ gap, (∀ press, t.checkedFit press gap = .ok (t.fit press gap)) ∧
        ∀ press press', press ≤ press' → (t.fit press gap).length ≤ (t.fit press' gap).length := by
  refine ⟨fun table least =>
      ⟨fun _ _ => table.ticks_split_mono least, table.split_ticks_split least⟩,
    fun gap => ⟨fun press => h.checkedFit_eq press gap, fun press press' hle => ?_⟩⟩
  rw [h.length_fit, h.length_fit]
  exact h.lengthOf_mono gap hle

/-- Of 100 ticks the split fills 90, of 120 ticks all. A press up to the gap gets the gap, and one
past it no less. -/
theorem Proper.quantization_monotone_past_gap :
    let t := ofResolution 480 none
    t.Proper ∧ (t.fit 5 (some 480)).length = 480 ∧
      LengthTable.ticks (t.noteSummands 100) = 90 ∧ t.noteSummands 90 = t.noteSummands 100 ∧
      LengthTable.ticks (t.noteSummands 100) ≤ LengthTable.ticks (t.noteSummands 120) ∧
      (t.fit 5 (some 480)).length ≤ (t.fit 481 (some 480)).length := by
  intro t
  have ht : t.Proper := ⟨480, none, by decide, rfl⟩
  obtain ⟨hsplit, hfit⟩ := Proper.quantization_monotone ht
  obtain ⟨hmono, hstable⟩ := hsplit t.notes 0
  have hticks : LengthTable.ticks (t.noteSummands 100) = 90 := by decide +kernel
  refine ⟨ht, by decide +kernel, hticks, ?_, hmono 100 120 (by decide),
    (hfit (some 480)).2 5 481 (by decide)⟩
  exact hticks ▸ hstable 100

end LengthTables

end Transcription
