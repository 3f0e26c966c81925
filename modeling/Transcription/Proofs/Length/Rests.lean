import Transcription.Proofs.Length.Notes

/-!
# Which gaps can be written as rests

The longest length of every table is the dotted whole note, six quarters. So the shortest rest that
was chosen leaves a usable rest length exactly if it is no longer than that, and a gap can be
written as a rest exactly if there is such a length and the gap is not below the shortest of them.
-/

namespace Transcription

namespace Length

variable {resolution : Int}

/-- What is at most six quarters is rounded to no more than that. -/
theorem ticksOf_le (hpos : 0 < resolution) {factor divisor : Int} (hdivisor : 0 < divisor)
    (hle : factor ≤ 6 * divisor) : ticksOf resolution factor divisor ≤ 6 * resolution := by
  have hmul : 2 * resolution * factor ≤ 2 * resolution * (6 * divisor) :=
    Int.mul_le_mul_of_nonneg_left hle (by omega)
  have hsix : 2 * resolution * (6 * divisor) = 6 * resolution * (2 * divisor) := by
    rw [Int.mul_left_comm, Int.mul_comm 2, Int.mul_assoc, Int.mul_assoc]
  rw [ticksOf_of_pos hdivisor]
  refine Int.le_of_lt_add_one (Int.ediv_lt_of_lt_mul (by omega) ?_)
  rw [Int.add_mul, Int.one_mul]
  omega

/-- No step of the ladder is longer than six quarters. -/
theorem le_of_mem_restLadder (hpos : 0 < resolution) {e : Int × String}
    (he : e ∈ restLadder resolution) : e.1 ≤ 6 * resolution := by
  have hnote : ∀ r ∈ noteRungs, 0 < r.divisor ∧ 0 ≤ r.factor ∧ r.factor ≤ 4 * r.divisor := by
    decide
  have hrest : ∀ r ∈ restRungs, 0 < r.divisor ∧ r.factor ≤ 6 * r.divisor := by decide
  rcases List.mem_append.mp he with he | he
  · rcases List.mem_append.mp he with he | he
    · obtain ⟨r, hr, he⟩ := List.mem_flatMap.mp he
      obtain ⟨hdivisor, hfactor, hle⟩ := hnote r hr
      simp only [Rung.forms, Rung.plain, List.mem_cons, List.not_mem_nil, or_false] at he
      rcases he with rfl | rfl | rfl <;> exact ticksOf_le hpos (by omega) (by omega)
    · simp only [List.mem_cons, List.not_mem_nil, or_false] at he
      rcases he with rfl | rfl <;> exact ticksOf_le hpos (by decide) (by decide)
  · obtain ⟨r, hr, rfl⟩ := List.mem_map.mp he
    exact ticksOf_le hpos (hrest r hr).1 (hrest r hr).2

end Length

namespace LengthTables

variable {t : LengthTables} {resolution : Int}

/-- Some rest length is usable exactly if the shortest rest that was chosen is no longer than six
quarters. -/
theorem usable_iff (hpos : 0 < resolution) (minRest : Option Int) :
    let t := ofResolution resolution minRest
    (∃ e ∈ t.rests.entries, t.minRest ≤ e.1) ↔
      ∀ least, minRest = some least → least ≤ 6 * resolution := by
  intro t
  constructor
  · rintro ⟨e, he, hle⟩ least rfl
    have hladder := (Length.mem_of_mem_tableOf he).1
    exact Int.le_trans hle (Length.le_of_mem_restLadder hpos hladder)
  · intro hchosen
    have hmem := Length.mem_keys_tableOf
      (Length.noteLadder_subset resolution (Length.dottedWhole_mem resolution))
      (show 0 < 6 * resolution by omega)
    obtain ⟨e, he, heq⟩ := List.mem_map.mp hmem
    refine ⟨e, he, heq ▸ ?_⟩
    cases minRest with
    | none =>
      change Length.ticksOf resolution 1 64 ≤ 6 * resolution
      rw [Length.ticksOf_of_pos (by decide)]
      omega
    | some least => exact hchosen least rfl

/-- A gap can be written as a rest exactly if some rest length is usable and the gap is not below
the shortest rest. -/
theorem Proper.restSummands_ne_nil_iff (h : t.Proper) {ticks : Int} :
    t.restSummands ticks ≠ [] ↔
      (∃ e ∈ t.rests.entries, t.minRest ≤ e.1) ∧ t.shortestRest ≤ ticks := by
  constructor
  · intro hne
    obtain ⟨e, rest, hsplit⟩ := List.exists_cons_of_ne_nil hne
    have he : e ∈ t.restSummands ticks := hsplit ▸ List.mem_cons_self
    refine ⟨⟨e, LengthTable.mem_of_mem_split he⟩, ?_⟩
    by_contra hshort
    exact hne (restSummands_eq_nil (Int.not_le.mp hshort))
  · rintro ⟨husable, hle⟩
    obtain ⟨e, he, hleast, heq⟩ := exists_shortestRest husable
    exact LengthTable.split_ne_nil he hleast (h.rests_ofLadder.pos he) (heq ▸ hle)

/-- Without a usable rest length, the shortest rest is the one that was chosen. -/
theorem shortestRest_of_unusable (h : ¬ ∃ e ∈ t.rests.entries, t.minRest ≤ e.1) :
    t.shortestRest = t.minRest := by
  rcases t.shortestRest_cases with ⟨e, he, hle, _⟩ | ⟨_, heq⟩
  · exact absurd ⟨e, he, hle⟩ h
  · exact heq

end LengthTables

end Transcription
