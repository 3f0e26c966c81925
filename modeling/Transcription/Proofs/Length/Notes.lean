import Transcription.Proofs.Length.Tokens

/-!
# Lengths of notes and rests

At every resolution each note gets a length that can be written, whatever its press and the gap
after it. A rest can be written exactly for gaps that are not shorter than the shortest rest, and it
falls short of its gap by less than that.
-/

namespace Transcription

namespace Length

/-- The dotted whole note is six quarters at every resolution. -/
theorem ticksOf_dottedWhole (resolution : Int) : ticksOf resolution (4 * 3) 2 = 6 * resolution := by
  rw [ticksOf_of_pos (by decide)]
  omega

/-- The dotted whole note is a step of the ladder. -/
theorem dottedWhole_mem (resolution : Int) : (6 * resolution, "1.") ∈ noteLadder resolution := by
  rw [← ticksOf_dottedWhole]
  simp [noteLadder]

end Length

namespace LengthTables

/-- Tables made for a resolution at which there is time to write. -/
def Proper (t : LengthTables) : Prop :=
  ∃ resolution minRest, 0 < resolution ∧ t = ofResolution resolution minRest

variable {t : LengthTables}

/-- The note lengths are steps of the ladder. -/
theorem Proper.notes_ofLadder (h : t.Proper) : t.notes.OfLadder := by
  obtain ⟨resolution, minRest, _, rfl⟩ := h
  exact LengthTable.ofLadder_noteLengths resolution

/-- The rest lengths are steps of the ladder. -/
theorem Proper.rests_ofLadder (h : t.Proper) : t.rests.OfLadder := by
  obtain ⟨resolution, minRest, _, rfl⟩ := h
  exact LengthTable.ofLadder_restLengths resolution

/-- There is a note length at every resolution, for the dotted whole note is always one. -/
theorem Proper.notes_entries_ne_nil (h : t.Proper) : t.notes.entries ≠ [] := by
  obtain ⟨resolution, minRest, hpos, rfl⟩ := h
  have hkey : 6 * resolution ∈ (Length.noteLengths resolution).keys :=
    Length.mem_keys_tableOf (Length.dottedWhole_mem resolution) (show 0 < 6 * resolution by omega)
  intro hnil
  have hnil : (Length.noteLengths resolution).entries = [] := hnil
  rw [Table.keys, hnil] at hkey
  simp at hkey

/-- The shortest note is the smallest note length, and it takes up time. -/
theorem Proper.shortestNote (h : t.Proper) :
    ∃ e ∈ t.notes.entries, e.1 = t.shortestNote ∧ 0 < t.shortestNote ∧
      ∀ k ∈ t.notes.keys, t.shortestNote ≤ k := by
  cases hmin : t.notes.minKey? with
  | none => exact absurd (Table.minKey?_eq_none_iff.mp hmin) h.notes_entries_ne_nil
  | some k =>
    obtain ⟨hkey, hle⟩ := Table.minKey?_eq_some_iff.mp hmin
    obtain ⟨e, he, rfl⟩ := List.mem_map.mp hkey
    have heq : t.shortestNote = e.1 := by simp [LengthTables.shortestNote, hmin]
    exact ⟨e, he, heq.symm, heq ▸ h.notes_ofLadder.pos he, fun k hk => heq ▸ hle k hk⟩

/-- A duration that is not below the shortest note can be written as a note. -/
theorem Proper.noteSummands_ne_nil (h : t.Proper) {ticks : Int} (hle : t.shortestNote ≤ ticks) :
    t.noteSummands ticks ≠ [] := by
  obtain ⟨e, he, heq, hpos, _⟩ := h.shortestNote
  exact LengthTable.split_ne_nil he (by omega) (by omega) (by omega)

/-- The summands of a note are note lengths. -/
theorem mem_of_mem_noteSummands {ticks : Int} {e : Int × String} (he : e ∈ t.noteSummands ticks) :
    e ∈ t.notes.entries := (LengthTable.mem_of_mem_split he).1

/-- The summands of a rest are rest lengths. -/
theorem mem_of_mem_restSummands {ticks : Int} {e : Int × String} (he : e ∈ t.restSummands ticks) :
    e ∈ t.rests.entries := (LengthTable.mem_of_mem_split he).1

/-- A gap that a note takes as its length: it is a note length, and the press ends within it. -/
def Taken (t : LengthTables) (press : Int) (gap : Option Int) (g : Int) : Prop :=
  gap = some g ∧ g ∈ t.notes.keys ∧ press ≤ g

/-- A note gets the gap if it takes it, else the shortest note if its press is below that, and else
what the split of its press fills. -/
theorem lengthOf_cases (t : LengthTables) (press : Int) (gap : Option Int) :
    (∃ g, t.Taken press gap g ∧ t.lengthOf press gap = g) ∨
      (¬ ∃ g, t.Taken press gap g) ∧
        (press < t.shortestNote ∧ t.lengthOf press gap = t.shortestNote ∨
          t.shortestNote ≤ press ∧
            t.lengthOf press gap = LengthTable.ticks (t.noteSummands press)) := by
  unfold lengthOf
  cases hgap : gap.filter (fun g => t.notes.contains g ∧ press ≤ g) with
  | some g =>
    obtain ⟨hsome, htest⟩ := Option.filter_eq_some_iff.mp hgap
    rw [decide_eq_true_eq, Table.contains_iff] at htest
    exact .inl ⟨g, ⟨hsome, htest⟩, rfl⟩
  | none =>
    right
    constructor
    · rintro ⟨g, hsome, htest⟩
      rw [← Table.contains_iff] at htest
      exact Option.filter_eq_none_iff.mp hgap g hsome (decide_eq_true htest)
    · simp only
      split
      · exact .inl ⟨‹_›, rfl⟩
      · exact .inr ⟨by omega, rfl⟩

/-- No note gets less than the shortest note. -/
theorem Proper.shortestNote_le_lengthOf (h : t.Proper) (press : Int) (gap : Option Int) :
    t.shortestNote ≤ t.lengthOf press gap := by
  obtain ⟨_, _, _, hpos, hleast⟩ := h.shortestNote
  rcases t.lengthOf_cases press gap with
    ⟨g, ⟨_, hmem, _⟩, hlength⟩ | ⟨_, ⟨_, hlength⟩ | ⟨hlong, hlength⟩⟩
  · exact hlength ▸ hleast g hmem
  · exact Int.le_of_eq hlength.symm
  · obtain ⟨e, rest, hsplit⟩ := List.exists_cons_of_ne_nil (h.noteSummands_ne_nil hlong)
    have hmem (e' : Int × String) (he' : e' ∈ e :: rest) : e' ∈ t.notes.entries :=
      mem_of_mem_noteSummands (hsplit ▸ he')
    have hfirst := hleast e.1 (List.mem_map.mpr ⟨e, hmem e List.mem_cons_self, rfl⟩)
    have hrest : 0 ≤ LengthTable.ticks rest := by
      rcases eq_or_ne rest [] with rfl | hne
      · exact Int.le_refl _
      · exact Int.le_of_lt (LengthTable.ticks_pos hne (fun e' he' =>
          h.notes_ofLadder.pos (hmem e' (List.mem_cons_of_mem _ he'))))
    rw [hlength, hsplit, LengthTable.ticks_cons]
    omega

/-- A press exceeds the length that the note gets by less than the shortest note. -/
theorem Proper.press_lt (h : t.Proper) (press : Int) (gap : Option Int) :
    press < t.lengthOf press gap + t.shortestNote := by
  obtain ⟨e, he, heq, hpos, _⟩ := h.shortestNote
  rcases t.lengthOf_cases press gap with
    ⟨g, ⟨_, _, hle⟩, hlength⟩ | ⟨_, ⟨hshort, hlength⟩ | ⟨hlong, hlength⟩⟩
  · omega
  · omega
  · have hleft : press - LengthTable.ticks (t.noteSummands press) < e.1 :=
      LengthTable.sub_ticks_split_lt (by omega) he (by omega) (by omega)
    omega

/-- A note gets its length as it is. -/
theorem Proper.length_fit (h : t.Proper) (press : Int) (gap : Option Int) :
    (t.fit press gap).length = t.lengthOf press gap := by
  obtain ⟨_, _, _, hpos, _⟩ := h.shortestNote
  have hle := h.shortestNote_le_lengthOf press gap
  simp only [fit]
  rw [if_neg (by omega)]

/-- Every note has a length that can be written. -/
theorem Proper.noteSummands_fit_ne_nil (h : t.Proper) (press : Int) (gap : Option Int) :
    t.noteSummands (t.fit press gap).length ≠ [] := by
  rw [h.length_fit]
  exact h.noteSummands_ne_nil (h.shortestNote_le_lengthOf press gap)

/-- The text of the rest for a gap, if the gap can be written. -/
def restText? (t : LengthTables) (ticks : Int) : Option String :=
  if ticks ≤ 0 ∨ t.restSummands ticks = [] then none
  else some (LengthTable.text (t.restSummands ticks))

/-- The ticks that are written of a gap. -/
def restTicks (t : LengthTables) (ticks : Int) : Int :=
  if ticks ≤ 0 then 0 else LengthTable.ticks (t.restSummands ticks)

/-- What is written of a gap is no more than the gap. -/
theorem Proper.restTicks_bounds (h : t.Proper) {ticks : Int} (hticks : 0 ≤ ticks) :
    0 ≤ t.restTicks ticks ∧ t.restTicks ticks ≤ ticks := by
  unfold restTicks
  split
  · omega
  · refine ⟨?_, LengthTable.ticks_split_le _ _ hticks⟩
    rcases eq_or_ne (t.restSummands ticks) [] with hnil | hne
    · simp [hnil]
    · exact Int.le_of_lt (LengthTable.ticks_pos hne (fun e he =>
        h.rests_ofLadder.pos (mem_of_mem_restSummands he)))

/-- The shortest rest takes up time, if some rest length is allowed. -/
theorem Proper.shortestRest_pos (h : t.Proper) (hrest : ∃ e ∈ t.rests.entries, t.minRest ≤ e.1) :
    0 < t.shortestRest := by
  obtain ⟨e, he, _, heq⟩ := exists_shortestRest hrest
  rw [heq]
  exact h.rests_ofLadder.pos he

/-- What is left out of a gap is less than the shortest rest, if some rest length is allowed. -/
theorem Proper.sub_restTicks_lt (h : t.Proper) (hrest : ∃ e ∈ t.rests.entries, t.minRest ≤ e.1)
    {ticks : Int} (hticks : 0 ≤ ticks) : ticks - t.restTicks ticks < t.shortestRest := by
  obtain ⟨e, he, hle, heq⟩ := exists_shortestRest hrest
  have hpos := h.rests_ofLadder.pos he
  unfold restTicks
  split
  · omega
  · rw [heq]
    exact LengthTable.sub_ticks_split_lt hticks he hle hpos

/-- A gap that is not below the shortest rest can be written, if some rest length is allowed. -/
theorem Proper.isSome_restText? (h : t.Proper) (hrest : ∃ e ∈ t.rests.entries, t.minRest ≤ e.1)
    {ticks : Int} (hticks : t.shortestRest ≤ ticks) : (t.restText? ticks).isSome := by
  obtain ⟨e, he, hle, heq⟩ := exists_shortestRest hrest
  have hpos := h.rests_ofLadder.pos he
  have hne : t.restSummands ticks ≠ [] := LengthTable.split_ne_nil he hle hpos (by omega)
  rw [restText?, if_neg (not_or.mpr ⟨by omega, hne⟩)]
  rfl

end LengthTables

end Transcription
