import Mathlib.Algebra.Order.Group.Abs
import Mathlib.Algebra.Order.Group.Int
import Transcription.Proofs.Length.Monotone
import Transcription.Proofs.Length.Rests
import Transcription.Proofs.Score.Checked

/-!
# The lengths of notes and of rests in a score

Every held note gets a length that is split into note lengths without a remainder, so it is written
exactly, and never warned of; the percentage tells how long the note is pressed to within half a
percent of the length. A gap is written as a rest exactly if it is not below the shortest rest, as
long as the shortest rest that was chosen is no longer than the longest length. Past this no gap can
be written, and the shortest rest is only a number.
-/

namespace Transcription

open Writing

namespace LengthTables

variable {t : LengthTables}

/-! ### Notes -/

/-- Rounding half up, the share of a press in percent is off by at most one half. -/
theorem abs_percentOf_le {length : Int} (hpos : 0 < length) (press : Int) :
    2 * |100 * press - percentOf press length * length| ≤ length := by
  have hdiv := Int.mul_ediv_add_emod (press * 200 + length) (2 * length)
  have hnonneg := Int.emod_nonneg (press * 200 + length) (show 2 * length ≠ 0 by omega)
  have hlt := Int.emod_lt_of_pos (press * 200 + length) (show 0 < 2 * length by omega)
  have hshare : 2 * length * percentOf press length = 2 * (percentOf press length * length) := by
    rw [Int.mul_assoc, Int.mul_comm length]
  have hround : press * 200 + length =
      2 * (percentOf press length * length) + (press * 200 + length) % (2 * length) := by
    rw [← hshare, percentOf, hdiv]
  rcases abs_choice (100 * press - percentOf press length * length) with habs | habs <;>
    rw [habs] <;> omega

/-- What a held note gets: a length that note lengths fill, and the pressed share of it. -/
structure Fitting (t : LengthTables) (press : Int) (gap : Option Int) (fit : NoteFit) : Prop where
  /-- The length takes up time. -/
  length_pos : 0 < fit.length
  /-- A gap that is a note length, and not shorter than the press, is the length. -/
  taken : ∀ g, t.Taken press gap g → fit.length = g
  /-- Else a press below the shortest note gets the shortest note. -/
  short : (¬ ∃ g, t.Taken press gap g) → press < t.shortestNote → fit.length = t.shortestNote
  /-- Else the length falls short of the press by less than the shortest note. -/
  long : (¬ ∃ g, t.Taken press gap g) → t.shortestNote ≤ press →
    fit.length ≤ press ∧ press < fit.length + t.shortestNote
  /-- The length is split into at least one note length, and without a remainder. -/
  filled : t.noteSummands fit.length ≠ [] ∧
    LengthTable.ticks (t.noteSummands fit.length) = fit.length
  /-- The percentage of the length is the press, up to half a percent. -/
  faithful : 2 * |100 * press - fit.percent * fit.length| ≤ fit.length
  /-- A press is no less than nothing of the length, and no more than twice the length. -/
  percent : 0 ≤ press → 0 ≤ fit.percent ∧ fit.percent ≤ 200

/-- The length of a note is split without a remainder: it is a length of the table, or what a split
fills. -/
theorem Proper.ticks_noteSummands_lengthOf (h : t.Proper) (press : Int) (gap : Option Int) :
    LengthTable.ticks (t.noteSummands (t.lengthOf press gap)) = t.lengthOf press gap := by
  rcases t.lengthOf_cases press gap with
    ⟨g, ⟨_, hmem, _⟩, hlength⟩ | ⟨_, ⟨_, hlength⟩ | ⟨_, hlength⟩⟩
  · rw [hlength, h.ticks_noteSummands hmem]
  · rw [hlength, h.ticks_noteSummands h.isLeast_shortestNote.1]
  · rw [hlength, noteSummands, noteSummands, LengthTable.split_ticks_split]

/-- A note gets a length that fits. -/
theorem Proper.fitting (h : t.Proper) (press : Int) (gap : Option Int) :
    t.Fitting press gap (t.fit press gap) := by
  obtain ⟨_, _, _, hshortest, _⟩ := h.shortestNote
  have hlength := h.length_fit press gap
  have hle := h.shortestNote_le_lengthOf press gap
  have hpercent : (t.fit press gap).percent = percentOf press (t.lengthOf press gap) := by
    simp only [fit]
    rw [if_neg (by omega)]
  have hcases := t.lengthOf_cases press gap
  constructor
  case length_pos => omega
  case taken =>
    intro g hg
    rcases hcases with ⟨g', hg', heq⟩ | ⟨hfree, _⟩
    · rw [hlength, heq]
      exact Option.some.inj (hg'.1.symm.trans hg.1)
    · exact absurd ⟨g, hg⟩ hfree
  case short =>
    intro hfree hshort
    rcases hcases with ⟨g, hg, _⟩ | ⟨_, ⟨_, heq⟩ | ⟨hlong, _⟩⟩
    · exact absurd ⟨g, hg⟩ hfree
    · rw [hlength, heq]
    · omega
  case long =>
    intro hfree hlong
    refine ⟨?_, hlength ▸ h.press_lt press gap⟩
    rcases hcases with ⟨g, hg, _⟩ | ⟨_, ⟨hshort, _⟩ | ⟨_, heq⟩⟩
    · exact absurd ⟨g, hg⟩ hfree
    · omega
    · rw [hlength, heq]
      exact LengthTable.ticks_split_le _ _ (by omega)
  case filled =>
    refine ⟨h.noteSummands_fit_ne_nil press gap, ?_⟩
    rw [hlength]
    exact h.ticks_noteSummands_lengthOf press gap
  case faithful =>
    rw [hpercent, hlength]
    exact abs_percentOf_le (by omega) press
  case percent =>
    intro hpress
    refine ⟨?_, h.percent_le press gap⟩
    rw [hpercent]
    exact Int.ediv_nonneg (by omega) (by omega)

/-- **A note length can always be written, and the percentage is faithful.** Every held note gets a
length that fits. When the note is written, whatever the score, its text stands for this length, it
ends this length after its chord begins, and nothing is noticed. -/
theorem Proper.fit_faithful (h : t.Proper) (press : Int) (gap : Option Int) :
    IsLeast {k | k ∈ t.notes.keys} t.shortestNote ∧
      ∃ fit, t.checkedFit press gap = .ok fit ∧ t.Fitting press gap fit ∧
        ∀ p : Plan, p.tables = t → ∀ (channel tick pitch : Int) (next : Option Int) (n : Note)
          (s : Score), n.offTick - tick = press → next.map (fun next => next - tick) = gap →
          ∃ tone s', Writes (Checked.tone p channel tick next (pitch, n)) s tone s' ∧
            t.notes.ticks? tone.written.text = some fit.length ∧
            tone.written.endTick = tick + fit.length ∧ tone.written.percent = fit.percent ∧
            s'.notices = s.notices := by
  have hfitting := h.fitting press gap
  refine ⟨h.isLeast_shortestNote, _, h.checkedFit_eq press gap, hfitting, ?_⟩
  rintro p rfl channel tick pitch next n s rfl rfl
  obtain ⟨hne, hfilled⟩ := hfitting.filled
  refine ⟨_, _, Checked.writes_tone h channel tick next (pitch, n) s, ?_, ?_, rfl, ?_⟩
  · have htext := h.notes_ofLadder.ticks?_text (fun e he => mem_of_mem_noteSummands he) hne
    rw [hfilled] at htext
    exact htext
  · exact congrArg (tick + ·) hfilled
  · have htokens : (Checked.toneOf p tick next (pitch, n)).written.tokens ≠ [] := by
      simpa [Checked.toneOf, write] using hne
    rw [Score.countTone, if_neg htokens]

/-- A note that is pressed a little longer than a quarter tied to a sixteenth, with a gap after it
that is no length. -/
theorem Proper.fit_faithful_tied :
    let t := ofResolution 480 none
    let p := Plan.of { resolution := 480 } {}
    let n : Note := { velocity := 100, offTick := 710 }
    t.Proper ∧ t.checkedFit 610 (some 485) = .ok ⟨600, 102⟩ ∧ t.Fitting 610 (some 485) ⟨600, 102⟩ ∧
      ∃ tone s', Writes (Checked.tone p 0 100 (some 585) (60, n)) {} tone s' ∧
        t.notes.ticks? tone.written.text = some 600 ∧ tone.written.endTick = 700 ∧
        s'.notices = #[] := by
  intro t p n
  have ht : t.Proper := ⟨480, none, by decide, rfl⟩
  have hvalue : t.checkedFit 610 (some 485) = .ok ⟨600, 102⟩ := by decide +kernel
  obtain ⟨_, fit, hfit, hfitting, hwrites⟩ := Proper.fit_faithful ht 610 (some 485)
  obtain rfl := Except.ok.inj (hfit.symm.trans hvalue)
  obtain ⟨tone, s', hwrites, htext, hend, _, hnotices⟩ :=
    hwrites p rfl 0 100 60 (some 585) n {} rfl rfl
  exact ⟨ht, hvalue, hfitting, tone, s', hwrites, htext, hend, hnotices⟩

/-! ### Rests -/

/-- **A gap that is not below the shortest rest is written as a rest,** and only such a gap is,
exactly unless the gap and the shortest rest that was chosen are longer than six quarters. When the
gap of a part is written, whatever the score, there is a rest if the gap can be split into rest
lengths, and else a warning. -/
theorem rests_agree_iff {resolution : Int} (hpos : 0 < resolution) (minRest : Option Int)
    (ticks : Int) :
    let t := ofResolution resolution minRest
    ((t.restSummands ticks ≠ [] ↔ t.shortestRest ≤ ticks) ↔
        ∀ least, minRest = some least → 6 * resolution < least → ticks < least) ∧
      ∀ p : Plan, p.tables = t → 0 < ticks → ∀ (id : PartId) (tick : Int) (s : Score),
        ∃ written s', Writes (Checked.rest p id ticks tick) s written s' ∧
          (written.isSome ↔ t.restSummands ticks ≠ []) ∧
          s'.notices = if written.isSome then s.notices
            else s.notices.push (.warning (Score.restWarning id ticks tick)) := by
  intro t
  have ht : t.Proper := ⟨resolution, minRest, hpos, rfl⟩
  have husable : (∃ e ∈ t.rests.entries, t.minRest ≤ e.1) ↔
      ∀ least, minRest = some least → least ≤ 6 * resolution := usable_iff hpos minRest
  constructor
  · rw [ht.restSummands_ne_nil_iff]
    by_cases hrest : ∃ e ∈ t.rests.entries, t.minRest ≤ e.1
    · refine iff_of_true (and_iff_right hrest) (fun least hchosen hlarge => ?_)
      have := husable.mp hrest least hchosen
      omega
    · obtain ⟨least, rfl, hlarge⟩ : ∃ least, minRest = some least ∧ 6 * resolution < least := by
        simpa using mt husable.mpr hrest
      have hshortest : t.shortestRest = least := shortestRest_of_unusable hrest
      rw [hshortest]
      simp only [hrest, false_and, false_iff, Int.not_le]
      refine ⟨?_, fun h => h least rfl hlarge⟩
      rintro h _ ⟨⟩ _
      exact h
  · rintro p hp hticks id tick s
    have hwrites : Writes (Checked.rest p id ticks tick) s (s.rest p id ticks tick).1
        (s.rest p id ticks tick).2 := by
      rw [Checked.rest_eq (hp ▸ ht)]
      exact Writes.of _ s
    refine ⟨_, _, hwrites, ?_⟩
    rw [← hp, Score.rest, if_neg (Int.not_le.mpr hticks)]
    by_cases hnil : p.tables.restSummands ticks = []
    · rw [if_pos hnil]
      exact ⟨by simp [hnil], rfl⟩
    · rw [if_neg hnil]
      exact ⟨by simp [hnil], rfl⟩

/-- The longest length, chosen as the shortest rest, can still be written. -/
theorem rests_agree_iff_longest :
    let t := ofResolution 480 (some 2880)
    (0 : Int) < 480 ∧ t.shortestRest = 2880 ∧ t.restSummands 2880 ≠ [] ∧
      ∃ written s', Writes (Checked.rest (Plan.of { resolution := 480 } { minRest := some 2880 })
        (PartId.mk 0 0) 2880 0) {} written s' ∧ written.isSome ∧ s'.notices = #[] := by
  intro t
  obtain ⟨hiff, hwrites⟩ := rests_agree_iff (show (0 : Int) < 480 by decide) (some 2880) 2880
  have hshortest : t.shortestRest = 2880 := by decide +kernel
  have hne : t.restSummands 2880 ≠ [] := by
    refine (hiff.mpr ?_).mpr (Int.le_of_eq hshortest)
    rintro least ⟨⟩ hlarge
    omega
  obtain ⟨written, s', hwrites, hwritten, hnotices⟩ :=
    hwrites (Plan.of { resolution := 480 } { minRest := some 2880 }) rfl (by decide) ⟨0, 0⟩ 0 {}
  rw [if_pos (hwritten.mpr hne)] at hnotices
  exact ⟨by decide, hshortest, hne, written, s', hwrites, hwritten.mpr hne, hnotices⟩

/-- One tick past the longest length, the shortest rest that was chosen is itself no rest. -/
theorem rests_disagree :
    ∃ settings, Settings.ofDocument (.obj [("min_rest_ticks", .int 2881)]) = .ok settings ∧
      let t := ofResolution 480 settings.minRest
      t.shortestRest = 2881 ∧ ¬ (t.restSummands 2881 ≠ [] ↔ t.shortestRest ≤ 2881) :=
  ⟨{ minRest := some 2881 }, by decide +kernel, by decide +kernel, by decide +kernel⟩

end LengthTables

end Transcription
