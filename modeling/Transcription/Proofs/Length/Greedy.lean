import Mathlib.Data.List.Basic
import Transcription.Length.Tables
import Transcription.Proofs.Table

/-!
# What a split leaves over

The ticks of a split never exceed the duration, and what is left over is smaller than every entry
that could have been used. So a gap is written as a rest exactly if it is not shorter than the
shortest usable rest.
-/

namespace Transcription

namespace LengthTable

@[simp] theorem ticks_nil : ticks [] = 0 := rfl

@[simp] theorem ticks_cons (e : Int × String) (l : List (Int × String)) :
    ticks (e :: l) = e.1 + ticks l := rfl

@[simp] theorem ticks_append (l m : List (Int × String)) :
    ticks (l ++ m) = ticks l + ticks m := by
  induction l with
  | nil => simp
  | cons e l ih => rw [List.cons_append, ticks_cons, ticks_cons, ih, Int.add_assoc]

@[simp] theorem ticks_replicate (n : Nat) (e : Int × String) :
    ticks (List.replicate n e) = n * e.1 := by
  induction n with
  | zero => simp
  | succ n ih =>
    rw [List.replicate_succ, ticks_cons, ih, Int.natCast_succ, Int.add_mul, Int.one_mul,
      Int.add_comm]

/-- No time is split into nothing. -/
theorem splitAlong_of_nonpos {entries : List (Int × String)} {duration : Int}
    (h : duration ≤ 0) : splitAlong entries duration = [] := by
  induction entries with
  | nil => rfl
  | cons e rest ih => rw [splitAlong, if_neg (by omega), ih]

section First

variable {e : Int × String} (rest : List (Int × String)) {duration : Int}

/-- An entry that takes no time is passed over. -/
theorem splitAlong_cons_of_nonpos (h : ¬ 0 < e.1) :
    splitAlong (e :: rest) duration = splitAlong rest duration := by
  rw [splitAlong, if_neg (fun hfits => h hfits.1)]

/-- The first entry is used as often as it fits, and the others split the remainder. -/
theorem splitAlong_cons_of_pos (hpos : 0 < e.1) (hduration : 0 ≤ duration) :
    splitAlong (e :: rest) duration =
      List.replicate (duration / e.1).toNat e ++ splitAlong rest (duration % e.1) := by
  by_cases hfits : e.1 ≤ duration
  · rw [splitAlong, if_pos ⟨hpos, hfits⟩]
  · rw [splitAlong, if_neg (by omega), Int.ediv_eq_zero_of_lt hduration (by omega),
      Int.emod_eq_of_lt hduration (by omega)]
    rfl

/-- The ticks of a split, from the quotient and the remainder of its first entry. -/
theorem ticks_splitAlong_cons (hpos : 0 < e.1) (hduration : 0 ≤ duration) :
    ticks (splitAlong (e :: rest) duration) =
      e.1 * (duration / e.1) + ticks (splitAlong rest (duration % e.1)) := by
  have hquot : 0 ≤ duration / e.1 := Int.ediv_nonneg hduration (Int.le_of_lt hpos)
  rw [splitAlong_cons_of_pos rest hpos hduration, ticks_append, ticks_replicate,
    Int.toNat_of_nonneg hquot, Int.mul_comm]

end First

/-- A split takes up no more than the duration, and what is left over is smaller than every entry
that may be used. -/
theorem splitAlong_remainder (entries : List (Int × String)) {duration : Int}
    (hduration : 0 ≤ duration) :
    0 ≤ duration - ticks (splitAlong entries duration) ∧
      duration - ticks (splitAlong entries duration) ≤ duration ∧
      ∀ e ∈ entries, 0 < e.1 → duration - ticks (splitAlong entries duration) < e.1 := by
  induction entries generalizing duration with
  | nil => simp [splitAlong, hduration]
  | cons e rest ih =>
    by_cases hentry : 0 < e.1
    · have hmod := Int.emod_nonneg duration (show e.1 ≠ 0 by omega)
      have hlt := Int.emod_lt_of_pos duration hentry
      have hdiv := Int.mul_ediv_add_emod duration e.1
      have hused := Int.mul_nonneg (Int.le_of_lt hentry)
        (Int.ediv_nonneg hduration (Int.le_of_lt hentry))
      obtain ⟨hnonneg, hle, hrest⟩ := ih hmod
      rw [ticks_splitAlong_cons rest hentry hduration]
      refine ⟨by omega, by omega, ?_⟩
      intro e' he' hpos
      rcases List.mem_cons.mp he' with rfl | he'
      · omega
      · have := hrest e' he' hpos
        omega
    · obtain ⟨hnonneg, hle, hrest⟩ := ih hduration
      rw [splitAlong_cons_of_nonpos rest hentry]
      refine ⟨hnonneg, hle, ?_⟩
      intro e' he' hpos
      rcases List.mem_cons.mp he' with rfl | he'
      · exact absurd hpos hentry
      · exact hrest e' he' hpos

/-- A split fills no more than all of a duration. -/
theorem ticks_splitAlong_le (entries : List (Int × String)) {duration : Int}
    (hduration : 0 ≤ duration) : ticks (splitAlong entries duration) ≤ duration := by
  have hleft := (splitAlong_remainder entries hduration).1
  omega

/-- A split never fills less than nothing. -/
theorem ticks_splitAlong_nonneg (entries : List (Int × String)) (duration : Int) :
    0 ≤ ticks (splitAlong entries duration) := by
  rcases Int.lt_or_le duration 0 with hneg | hduration
  · refine Int.le_of_eq ?_
    rw [splitAlong_of_nonpos (Int.le_of_lt hneg), ticks_nil]
  · have hle := (splitAlong_remainder entries hduration).2.1
    omega

/-- Nothing is used of entries that are all larger than the duration. -/
theorem splitAlong_eq_nil {entries : List (Int × String)} {duration : Int}
    (h : ∀ e ∈ entries, duration < e.1) : splitAlong entries duration = [] := by
  induction entries with
  | nil => rfl
  | cons e rest ih =>
    have hlarge := h e List.mem_cons_self
    rw [splitAlong, if_neg (by omega)]
    exact ih (fun e' he' => h e' (List.mem_cons_of_mem _ he'))

/-- An entry is usable if it is in the table and not below the minimum. -/
theorem mem_usable {table : LengthTable} {least : Int} {e : Int × String} :
    e ∈ usable table least ↔ e ∈ table.entries ∧ least ≤ e.1 := by
  simp [usable]

/-- A split uses entries of the table only, none below the minimum. -/
theorem mem_of_mem_split {table : LengthTable} {least duration : Int} {e : Int × String}
    (h : e ∈ split table least duration) : e ∈ table.entries ∧ least ≤ e.1 :=
  mem_usable.mp (mem_of_mem_splitAlong h)

/-- A split takes up no more than the duration. -/
theorem ticks_split_le (table : LengthTable) (least : Int) {duration : Int}
    (hduration : 0 ≤ duration) : ticks (split table least duration) ≤ duration :=
  ticks_splitAlong_le _ hduration

/-- What a split leaves over is smaller than every usable entry. -/
theorem sub_ticks_split_lt {table : LengthTable} {least duration : Int} {e : Int × String}
    (hduration : 0 ≤ duration) (he : e ∈ table.entries) (hleast : least ≤ e.1) (hpos : 0 < e.1) :
    duration - ticks (split table least duration) < e.1 :=
  (splitAlong_remainder _ hduration).2.2 e (mem_usable.mpr ⟨he, hleast⟩) hpos

/-- A duration that is not shorter than some usable entry is not split into nothing. -/
theorem split_ne_nil {table : LengthTable} {least duration : Int} {e : Int × String}
    (he : e ∈ table.entries) (hleast : least ≤ e.1) (hpos : 0 < e.1) (hle : e.1 ≤ duration) :
    split table least duration ≠ [] := by
  intro hnil
  have hlt := sub_ticks_split_lt (show 0 ≤ duration by omega) he hleast hpos
  rw [hnil, ticks_nil] at hlt
  omega

/-- A split of positive entries takes up time unless it is empty. -/
theorem ticks_pos {l : List (Int × String)} (hne : l ≠ []) (hpos : ∀ e ∈ l, 0 < e.1) :
    0 < ticks l := by
  induction l with
  | nil => exact absurd rfl hne
  | cons e rest ih =>
    have hfirst := hpos e List.mem_cons_self
    rw [ticks_cons]
    rcases List.eq_nil_or_concat' rest with rfl | ⟨_, _, hrest⟩
    · simpa using hfirst
    · have := ih (by simp [hrest]) (fun e' he' => hpos e' (List.mem_cons_of_mem _ he'))
      omega

end LengthTable

namespace LengthTables

variable {t : LengthTables}

/-- The shortest rest is the smallest usable rest length if there is one, and the minimum if there
is none. -/
theorem shortestRest_cases (t : LengthTables) :
    (∃ e ∈ t.rests.entries, t.minRest ≤ e.1 ∧ t.shortestRest = e.1 ∧
        ∀ e' ∈ t.rests.entries, t.minRest ≤ e'.1 → e.1 ≤ e'.1) ∨
      ((∀ e ∈ t.rests.entries, e.1 < t.minRest) ∧ t.shortestRest = t.minRest) := by
  unfold shortestRest
  cases hmin : (t.rests.filter (fun ticks _ => t.minRest ≤ ticks)).minKey? with
  | none =>
    right
    rw [Table.minKey?_eq_none_iff] at hmin
    refine ⟨?_, rfl⟩
    intro e he
    by_contra hlarge
    have hmem : e ∈ (t.rests.filter (fun ticks _ => t.minRest ≤ ticks)).entries :=
      Table.mem_entries_filter.mpr ⟨he, by simpa using hlarge⟩
    simp [hmin] at hmem
  | some k =>
    left
    obtain ⟨hkey, hleast⟩ := Table.minKey?_eq_some_iff.mp hmin
    obtain ⟨e, he, rfl⟩ := List.mem_map.mp hkey
    obtain ⟨hmem, hle⟩ := Table.mem_entries_filter.mp he
    refine ⟨e, hmem, by simpa using hle, rfl, ?_⟩
    intro e' he' hle'
    exact hleast e'.1 (List.mem_map.mpr ⟨e', Table.mem_entries_filter.mpr ⟨he', by simpa⟩, rfl⟩)

/-- With a usable rest length, the shortest rest is one. -/
theorem exists_shortestRest (h : ∃ e ∈ t.rests.entries, t.minRest ≤ e.1) :
    ∃ e ∈ t.rests.entries, t.minRest ≤ e.1 ∧ t.shortestRest = e.1 := by
  rcases t.shortestRest_cases with ⟨e, he, hle, heq, _⟩ | ⟨hnone, _⟩
  · exact ⟨e, he, hle, heq⟩
  · obtain ⟨e, he, hle⟩ := h
    have := hnone e he
    omega

/-- A gap below the shortest rest is split into nothing. -/
theorem restSummands_eq_nil {ticks : Int} (h : ticks < t.shortestRest) :
    t.restSummands ticks = [] := by
  apply LengthTable.splitAlong_eq_nil
  intro e he
  obtain ⟨hmem, hle⟩ := LengthTable.mem_usable.mp he
  rcases t.shortestRest_cases with ⟨e', _, _, heq, hleast⟩ | ⟨hnone, _⟩
  · have := hleast e hmem hle
    omega
  · have := hnone e hmem
    omega

end LengthTables

end Transcription
