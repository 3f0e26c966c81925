import Transcription.Proofs.Length.Notes
import Transcription.Proofs.Recording.WellFormed
import Transcription.Score.Checked

/-!
# Lengths that cannot fail

In the tables of a resolution every summand has a token, every token is a number, and there is a
shortest note. So the checks of lengths succeed. The loop that splits a duration ends, because every
entry of a table takes up time, and what it has taken is the split.
-/

namespace Transcription

namespace LengthTable

variable {table : LengthTable}

/-- Summands of a table have their tokens. -/
theorem tokens?_map_fst {summands : List (Int × String)}
    (hmem : ∀ e ∈ summands, e ∈ table.entries) :
    table.tokens? (summands.map Prod.fst) = .ok (summands.map Prod.snd) := by
  induction summands with
  | nil => rfl
  | cons e rest ih =>
    have hget : table.get? e.1 = some e.2 := Table.mem_entries_iff.mp (hmem e List.mem_cons_self)
    have hrest := ih (fun e' he' => hmem e' (List.mem_cons_of_mem _ he'))
    rw [tokens?] at hrest ⊢
    rw [List.map_cons, List.mapM_cons, hget, hrest]
    rfl

/-- The ticks of summands are their sum. -/
theorem foldr_map_fst (summands : List (Int × String)) :
    (summands.map Prod.fst).foldr (· + ·) 0 = ticks summands :=
  List.foldr_map

/-- The tokens of a ladder's table are numbers, up to a dot. -/
theorem OfLadder.mapM_isTriplet? (h : table.OfLadder) {summands : List (Int × String)}
    (hmem : ∀ e ∈ summands, e ∈ table.entries) :
    (summands.map Prod.snd).mapM Length.isTriplet? =
      .ok ((summands.map Prod.snd).map Length.isTriplet) := by
  have hall : ∀ token ∈ (Length.restLadder 1).map Prod.snd,
      (Length.isTriplet? token).toOption.isSome := by decide +kernel
  obtain ⟨resolution, h⟩ := h
  refine mapM_eq_ok (fun token htoken => ?_)
  obtain ⟨e, he, rfl⟩ := List.mem_map.mp htoken
  have hsome := hall e.2 (Length.tokens_restLadder resolution ▸
    List.mem_map.mpr ⟨e, (h e (hmem e he)).1, rfl⟩)
  rw [Length.isTriplet]
  cases htriplet : Length.isTriplet? e.2 with
  | error failure => simp [htriplet, Except.toOption] at hsome
  | ok triplet => rfl

/-! ### The loop of a split -/

/-- The loop that takes an entry from a duration as often as it fits, with what it takes and what it
leaves. -/
inductive Drains (entry : Int) : Int → List Int → Int → Prop
  /-- The loop ends when the entry does not fit any more. -/
  | done {duration : Int} (h : duration < entry) : Drains entry duration [] duration
  /-- The entry is taken once more. -/
  | take {duration left : Int} {taken : List Int} (h : entry ≤ duration)
    (hrest : Drains entry (duration - entry) taken left) :
    Drains entry duration (entry :: taken) left

/-- The loops over entries from the largest one down, with all that they take. They stop at the
first entry below the minimum. -/
inductive Splits (least : Int) : List Int → Int → List Int → Prop
  /-- There are no more entries. -/
  | nil {duration : Int} : Splits least [] duration []
  /-- The other entries are below the minimum. -/
  | stop {entry duration : Int} {entries : List Int} (h : entry < least) :
    Splits least (entry :: entries) duration []
  /-- An entry is taken as often as it fits. -/
  | next {entry duration left : Int} {entries taken rest : List Int} (h : least ≤ entry)
    (hdrains : Drains entry duration taken left) (hrest : Splits least entries left rest) :
    Splits least (entry :: entries) duration (taken ++ rest)

/-- The loop over one entry ends if the entry takes up time. -/
theorem drains_replicate {entry : Int} (hpos : 0 < entry) (n : Nat) {left : Int}
    (hlt : left < entry) (hnonneg : 0 ≤ left) :
    Drains entry (n * entry + left) (List.replicate n entry) left := by
  induction n with
  | zero => simpa using Drains.done hlt
  | succ n ih =>
    have hmul : ((n + 1 : Nat) : Int) * entry = n * entry + entry := by
      rw [Int.natCast_succ, Int.add_mul, Int.one_mul]
    have hprod : 0 ≤ (n : Int) * entry := Int.mul_nonneg (Int.natCast_nonneg n) (by omega)
    refine Drains.take (by omega) ?_
    rw [show ((n + 1 : Nat) : Int) * entry + left - entry = n * entry + left by omega]
    exact ih

/-- The loops over positive entries in descending order take what `splitAlong` takes of those that
are not below the minimum. -/
theorem splits_splitAlong {entries : List (Int × String)} (hpos : ∀ e ∈ entries, 0 < e.1)
    (hsorted : entries.Pairwise (fun a b => b.1 < a.1)) (least duration : Int) :
    Splits least (entries.map Prod.fst) duration
      ((splitAlong (entries.filter (fun e => least ≤ e.1)) duration).map Prod.fst) := by
  induction entries generalizing duration with
  | nil => exact .nil
  | cons e rest ih =>
    obtain ⟨hfirst, hrest⟩ := List.pairwise_cons.mp hsorted
    have hentry := hpos e List.mem_cons_self
    have hloops := ih (fun e' he' => hpos e' (List.mem_cons_of_mem _ he')) hrest
    by_cases hleast : least ≤ e.1
    · have hfilter : (e :: rest).filter (fun e => least ≤ e.1) =
          e :: rest.filter (fun e => least ≤ e.1) := List.filter_cons_of_pos (by simpa using hleast)
      rw [hfilter, splitAlong]
      split
      · rename_i hfits
        have hquot := Int.ediv_nonneg (show 0 ≤ duration by omega) (Int.le_of_lt hentry)
        have hdiv := Int.mul_ediv_add_emod duration e.1
        have hdrains := drains_replicate hentry (duration / e.1).toNat
          (Int.emod_lt_of_pos duration hentry) (Int.emod_nonneg duration (by omega))
        rw [Int.toNat_of_nonneg hquot, Int.mul_comm, hdiv] at hdrains
        rw [List.map_append, List.map_replicate]
        exact .next hleast hdrains (hloops _)
      · exact .next hleast (.done (by omega)) (hloops _)
    · -- all further entries are smaller, so they are below the minimum as well
      have hfilter : (e :: rest).filter (fun e => least ≤ e.1) = [] := by
        refine List.filter_eq_nil_iff.mpr (fun e' he' => ?_)
        rcases List.mem_cons.mp he' with rfl | he'
        · simpa using hleast
        · have := hfirst e' he'
          simp only [decide_eq_true_eq]
          omega
      rw [hfilter]
      exact .stop (by omega)

/-- The loops end, and what they take is the split. -/
theorem splits_split (hpos : ∀ e ∈ table.entries, 0 < e.1) (least duration : Int) :
    Splits least table.keys.reverse duration ((split table least duration).map Prod.fst) := by
  have hpos' : ∀ e ∈ table.entries.reverse, 0 < e.1 := fun e he => hpos e (List.mem_reverse.mp he)
  have hloops := splits_splitAlong hpos' (List.pairwise_reverse.mpr table.ascending) least duration
  rw [List.map_reverse, List.filter_reverse] at hloops
  exact hloops

end LengthTable

namespace LengthTables

variable {t : LengthTables}

/-- There is a shortest note. -/
theorem Proper.shortestNote?_eq (h : t.Proper) : t.shortestNote? = .ok t.shortestNote := by
  rw [shortestNote?, LengthTables.shortestNote]
  cases hmin : t.notes.minKey? with
  | none => exact absurd (Table.minKey?_eq_none_iff.mp hmin) h.notes_entries_ne_nil
  | some ticks => rfl

/-- Every held note gets a length. -/
theorem Proper.checkedFit_eq (h : t.Proper) (press : Int) (gap : Option Int) :
    t.checkedFit press gap = .ok (t.fit press gap) := by
  have hlength : t.lengthOf? press gap = .ok (t.lengthOf press gap) := by
    unfold lengthOf? lengthOf
    cases gap.filter (fun g => t.notes.contains g ∧ press ≤ g) with
    | some g => rfl
    | none => exact bind_eq_ok.mpr ⟨_, h.shortestNote?_eq, rfl⟩
  unfold checkedFit fit
  refine bind_eq_ok.mpr ⟨_, hlength, ?_⟩
  by_cases hzero : t.lengthOf press gap ≤ 0
  · simp only [hzero, if_true]
    rfl
  · simp only [hzero, if_false]
    exact bind_eq_ok.mpr ⟨_, if_neg (by omega), rfl⟩

/-- A press is at most twice the length that a note gets. -/
theorem Proper.percent_le (h : t.Proper) (press : Int) (gap : Option Int) :
    (t.fit press gap).percent ≤ 200 := by
  obtain ⟨_, _, _, hpos, _⟩ := h.shortestNote
  have hlength := h.shortestNote_le_lengthOf press gap
  have hpress := h.press_lt press gap
  unfold fit
  simp only
  split
  · decide
  · change percentOf press (t.lengthOf press gap) ≤ 200
    unfold percentOf
    refine Int.le_of_lt_add_one (Int.ediv_lt_of_lt_mul (by omega) ?_)
    omega

end LengthTables

end Transcription
