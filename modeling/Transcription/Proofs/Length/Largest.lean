import Mathlib.Algebra.Ring.Int.Defs
import Mathlib.Order.Bounds.Basic
import Transcription.Proofs.Length.Checked

/-!
# A split takes what is largest

A split was defined by one scan of the table, from the largest entry down. Here it is told apart
from all other lists of lengths: each of its summands is the largest length of the whole table that
fits into what the summands before it leave, and no length fits into what is left at the end. The
loop that scans the table and the loop that picks the largest length again and again both end, and
both take this list.
-/

namespace Transcription.LengthTable

variable {table : LengthTable} {least duration k : Int} {summands : List Int}

/-! ### Lengths that fit -/

/-- A length of the table that may be used for a duration. -/
def Fits (table : LengthTable) (least duration k : Int) : Prop :=
  k ∈ table.keys ∧ least ≤ k ∧ k ≤ duration

/-- The largest length of the whole table that fits into a duration. -/
def largestFitting? (table : LengthTable) (least duration : Int) : Option Int :=
  (table.keys.filter (fun k => least ≤ k ∧ k ≤ duration)).max?

/-- The largest length that fits is the greatest of those that fit. -/
theorem largestFitting?_eq_some_iff :
    table.largestFitting? least duration = some k ↔
      IsGreatest {k | table.Fits least duration k} k := by
  rw [largestFitting?, List.max?_eq_some_iff]
  simp [IsGreatest, upperBounds, Fits]

/-- There is no largest length that fits if none fits. -/
theorem largestFitting?_eq_none_iff :
    table.largestFitting? least duration = none ↔ ∀ k, ¬ table.Fits least duration k := by
  rw [largestFitting?, List.max?_eq_none_iff, List.filter_eq_nil_iff]
  simp [Fits]

/-! ### Greedy lists -/

/-- What a list of lengths has to be to split a duration greedily. -/
structure Greedy (table : LengthTable) (least duration : Int) (summands : List Int) : Prop where
  /-- The summands never ascend. -/
  descending : summands.Pairwise (fun a b => b ≤ a)
  /-- Every summand is the largest length that fits into what the summands before it leave. -/
  largest : ∀ before k after, summands = before ++ k :: after →
    IsGreatest {k | table.Fits least (duration - before.sum) k} k
  /-- What is left of a duration is smaller than every length that may be used. -/
  left : 0 ≤ duration → ∀ k ∈ table.keys, least ≤ k →
    0 ≤ duration - summands.sum ∧ duration - summands.sum < k

/-- The loop that picks the largest length of the whole table until none fits, with what it
picks. -/
inductive Picks (table : LengthTable) (least : Int) : Int → List Int → Prop
  /-- The loop ends when no length fits. -/
  | done {duration : Int} (h : table.largestFitting? least duration = none) :
    Picks table least duration []
  /-- The largest length that fits is picked. -/
  | pick {duration k : Int} {rest : List Int} (h : table.largestFitting? least duration = some k)
    (hrest : Picks table least (duration - k) rest) : Picks table least duration (k :: rest)

/-- The loop that picks the largest length picks one list only. -/
theorem Picks.unique {summands' : List Int} (h : table.Picks least duration summands)
    (h' : table.Picks least duration summands') : summands = summands' := by
  induction h generalizing summands' with
  | done hnone =>
    cases h' with
    | done => rfl
    | pick hsome => simp [hnone] at hsome
  | pick hsome _ ih =>
    cases h' with
    | done hnone => simp [hnone] at hsome
    | pick hsome' hrest =>
      obtain rfl := Option.some.inj (hsome.symm.trans hsome')
      rw [ih hrest]

/-- A duration is split into nothing if no length fits. -/
theorem greedy_nil_iff (hpos : ∀ k ∈ table.keys, 0 < k) :
    table.Greedy least duration [] ↔ table.largestFitting? least duration = none := by
  rw [largestFitting?_eq_none_iff]
  constructor
  · rintro h k ⟨hmem, hleast, hle⟩
    have hkpos := hpos k hmem
    have hleft := (h.left (by omega) k hmem hleast).2
    simp only [List.sum_nil] at hleft
    omega
  · intro hnone
    refine ⟨.nil, fun before k after h => by simp at h, fun hduration k hk hleast => ?_⟩
    have hlarge : ¬ k ≤ duration := fun hle => hnone k ⟨hk, hleast, hle⟩
    simpa using And.intro hduration (Int.not_le.mp hlarge)

/-- The first summand is the largest length that fits, and the others split what it leaves. -/
theorem greedy_cons_iff (hpos : ∀ k ∈ table.keys, 0 < k) {rest : List Int} :
    table.Greedy least duration (k :: rest) ↔
      table.largestFitting? least duration = some k ∧ table.Greedy least (duration - k) rest := by
  have hsum (l : List Int) : duration - (k :: l).sum = duration - k - l.sum := by
    rw [List.sum_cons, Int.sub_sub]
  rw [largestFitting?_eq_some_iff]
  constructor
  · intro h
    have hfirst := h.largest [] k rest rfl
    simp only [List.sum_nil, Int.sub_zero] at hfirst
    obtain ⟨hmem, _, hle⟩ := hfirst.1
    have hkpos := hpos k hmem
    refine ⟨hfirst, (List.pairwise_cons.mp h.descending).2, fun before k' after heq => ?_,
      fun _ k' hk' hleast => ?_⟩
    · rw [← hsum]
      exact h.largest (k :: before) k' after (congrArg (k :: ·) heq)
    · rw [← hsum]
      exact h.left (by omega) k' hk' hleast
  · rintro ⟨⟨⟨hmem, hleast, hle⟩, hgreatest⟩, h⟩
    have hkpos := hpos k hmem
    refine ⟨?_, fun before k' after heq => ?_, fun _ k' hk' hleast' => ?_⟩
    · refine List.pairwise_cons.mpr ⟨?_, h.descending⟩
      cases rest with
      | nil => simp
      | cons k₁ after =>
        -- the second summand would fit as well, so it is not larger than the first
        obtain ⟨hmem₁, hleast₁, hle₁⟩ := (h.largest [] k₁ after rfl).1
        simp only [List.sum_nil, Int.sub_zero] at hle₁
        have hsecond : k₁ ≤ k := hgreatest ⟨hmem₁, hleast₁, by omega⟩
        intro k' hk'
        rcases List.mem_cons.mp hk' with rfl | hk'
        · exact hsecond
        · exact Int.le_trans ((List.pairwise_cons.mp h.descending).1 k' hk') hsecond
    · cases before with
      | nil =>
        obtain ⟨rfl, rfl⟩ := List.cons.inj heq
        simpa using ⟨⟨hmem, hleast, hle⟩, hgreatest⟩
      | cons k₁ before =>
        obtain ⟨rfl, hrest⟩ := List.cons.inj heq
        rw [hsum]
        exact h.largest before k' after hrest
    · rw [hsum]
      exact h.left (by omega) k' hk' hleast'

/-- The loop picks exactly the greedy lists. -/
theorem picks_iff_greedy (hpos : ∀ k ∈ table.keys, 0 < k) :
    table.Picks least duration summands ↔ table.Greedy least duration summands := by
  constructor
  · intro h
    induction h with
    | done hnone => exact (greedy_nil_iff hpos).mpr hnone
    | pick hsome _ ih => exact (greedy_cons_iff hpos).mpr ⟨hsome, ih⟩
  · intro h
    induction summands generalizing duration with
    | nil => exact .done ((greedy_nil_iff hpos).mp h)
    | cons k rest ih =>
      obtain ⟨hsome, hrest⟩ := (greedy_cons_iff hpos).mp h
      exact .pick hsome (ih hrest)

/-! ### Splits -/

/-- An entry that fits is taken, and the scan goes on at it. -/
theorem splitAlong_cons_of_le {e : Int × String} (rest : List (Int × String))
    (hpos : 0 < e.1) (hle : e.1 ≤ duration) :
    splitAlong (e :: rest) duration = e :: splitAlong (e :: rest) (duration - e.1) := by
  have hquot : (duration - e.1) / e.1 = duration / e.1 - 1 := by
    rw [Int.sub_ediv_of_dvd _ (Int.dvd_refl _), Int.ediv_self (by omega)]
  have hrem : (duration - e.1) % e.1 = duration % e.1 := Int.sub_emod_right _ _
  have hone : 1 ≤ duration / e.1 := (Int.le_ediv_iff_mul_le hpos).mpr (by omega)
  have htimes : (duration / e.1).toNat = (duration / e.1 - 1).toNat + 1 := by omega
  rw [splitAlong_cons_of_pos rest hpos (by omega), splitAlong_cons_of_pos rest hpos (by omega),
    hquot, hrem, htimes, List.replicate_succ, List.cons_append]

/-- Along a descending list, the largest entry that fits is taken first. -/
theorem splitAlong_eq_cons {entries : List (Int × String)} {e : Int × String}
    (hsorted : entries.Pairwise (fun a b => b.1 < a.1)) (he : e ∈ entries) (hpos : 0 < e.1)
    (hle : e.1 ≤ duration) (hlargest : ∀ e' ∈ entries, e'.1 ≤ duration → e'.1 ≤ e.1) :
    splitAlong entries duration = e :: splitAlong entries (duration - e.1) := by
  induction entries with
  | nil => simp at he
  | cons first rest ih =>
    obtain ⟨hfirst, hrest⟩ := List.pairwise_cons.mp hsorted
    rcases List.mem_cons.mp he with rfl | he
    · exact splitAlong_cons_of_le rest hpos hle
    · -- entries above the largest that fits are passed over, before it is taken and after
      have hover : duration < first.1 := by
        by_contra hfits
        have := hlargest first List.mem_cons_self (by omega)
        have := hfirst e he
        omega
      have htail := ih hrest he (fun e' he' => hlargest e' (List.mem_cons_of_mem _ he'))
      rwa [splitAlong, if_neg (by omega), splitAlong, if_neg (by omega)]

/-- The lengths of a split are picked by the loop over the whole table. -/
theorem picks_split (hpos : ∀ k ∈ table.keys, 0 < k) (least duration : Int) :
    table.Picks least duration ((split table least duration).map Prod.fst) := by
  have hsorted : (usable table least).Pairwise (fun a b => b.1 < a.1) :=
    List.pairwise_reverse.mpr (table.ascending.filter _)
  induction hn : duration.toNat using Nat.strong_induction_on generalizing duration with
  | _ n ih =>
    subst hn
    cases hlargest : table.largestFitting? least duration with
    | none =>
      have hnone := largestFitting?_eq_none_iff.mp hlargest
      have hsplit : split table least duration = [] := by
        refine splitAlong_eq_nil (fun e he => ?_)
        obtain ⟨hmem, hleast⟩ := mem_usable.mp he
        exact Int.not_le.mp (fun hle => hnone e.1 ⟨List.mem_map_of_mem hmem, hleast, hle⟩)
      rw [hsplit]
      exact .done hlargest
    | some k =>
      obtain ⟨⟨hmem, hleast, hle⟩, hgreatest⟩ := largestFitting?_eq_some_iff.mp hlargest
      obtain ⟨e, he, rfl⟩ := List.mem_map.mp hmem
      have hepos := hpos e.1 hmem
      have hsplit : split table least duration = e :: split table least (duration - e.1) := by
        refine splitAlong_eq_cons hsorted (mem_usable.mpr ⟨he, hleast⟩) hepos hle ?_
        intro e' he' hle'
        obtain ⟨hmem', hleast'⟩ := mem_usable.mp he'
        exact hgreatest ⟨List.mem_map_of_mem hmem', hleast', hle'⟩
      rw [hsplit]
      exact .pick hlargest (ih _ (by omega) _ rfl)

/-- The loop over one entry takes and leaves one thing only. -/
theorem Drains.unique {entry left left' : Int} {taken taken' : List Int}
    (h : Drains entry duration taken left) (h' : Drains entry duration taken' left') :
    taken = taken' ∧ left = left' := by
  induction h generalizing taken' with
  | done hlt =>
    cases h' with
    | done => exact ⟨rfl, rfl⟩
    | take hle => omega
  | take hle _ ih =>
    cases h' with
    | done hlt => omega
    | take _ hrest =>
      obtain ⟨rfl, rfl⟩ := ih hrest
      exact ⟨rfl, rfl⟩

/-- The loops over descending entries take one list only. -/
theorem Splits.unique {entries taken taken' : List Int} (h : Splits least entries duration taken)
    (h' : Splits least entries duration taken') : taken = taken' := by
  induction h generalizing taken' with
  | nil => cases h' with
    | nil => rfl
  | stop hlt =>
    cases h' with
    | stop => rfl
    | next hle => omega
  | next hle hdrains _ ih =>
    cases h' with
    | stop hlt => omega
    | next _ hdrains' hrest =>
      obtain ⟨rfl, rfl⟩ := hdrains.unique hdrains'
      rw [ih hrest]

/-- **A split is the greedy split.** In a table of positive lengths, the loop that scans the table
once ends and takes the lengths of the split, and so does the loop that picks the largest length of
the whole table again and again; and the split is the only greedy list. -/
theorem greedy_iff_eq_split (hpos : ∀ k ∈ table.keys, 0 < k) (least duration : Int)
    (summands : List Int) :
    (Splits least table.keys.reverse duration summands ↔
        summands = (split table least duration).map Prod.fst) ∧
      (table.Picks least duration summands ↔
        summands = (split table least duration).map Prod.fst) ∧
      (table.Greedy least duration summands ↔
        summands = (split table least duration).map Prod.fst) := by
  have hentries : ∀ e ∈ table.entries, 0 < e.1 := fun e he => hpos e.1 (List.mem_map_of_mem he)
  have hsplits := splits_split hentries least duration
  have hpicks := picks_split hpos least duration
  have hpicked : table.Picks least duration summands ↔
      summands = (split table least duration).map Prod.fst :=
    ⟨fun h => h.unique hpicks, fun h => h ▸ hpicks⟩
  refine ⟨⟨fun h => h.unique hsplits, fun h => h ▸ hsplits⟩, hpicked, ?_⟩
  rw [← picks_iff_greedy hpos, hpicked]

/-- Of 100 ticks the length of 90 is taken and 10 ticks are left, though 60 and 40 would fill
them. -/
theorem greedy_iff_eq_split_not_fewest :
    let table := Length.noteLengths 480
    (∀ k ∈ table.keys, 0 < k) ∧ Splits 0 table.keys.reverse 100 [90] ∧
      table.Picks 0 100 [90] ∧ table.Greedy 0 100 [90] ∧ ¬ table.Greedy 0 100 [60, 40] := by
  intro table
  have hpos : ∀ k ∈ table.keys, 0 < k := by decide +kernel
  have hsplit : (split table 0 100).map Prod.fst = [90] := by decide +kernel
  obtain ⟨hsplits, hpicks, hgreedy⟩ := greedy_iff_eq_split hpos 0 100 [90]
  refine ⟨hpos, hsplits.mpr hsplit.symm, hpicks.mpr hsplit.symm, hgreedy.mpr hsplit.symm, ?_⟩
  rw [(greedy_iff_eq_split hpos 0 100 [60, 40]).2.2, hsplit]
  decide

end Transcription.LengthTable
