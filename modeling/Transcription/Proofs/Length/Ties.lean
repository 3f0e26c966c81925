import Mathlib.Algebra.Order.BigOperators.Group.List
import Transcription.Proofs.Length.Accuracy
import Transcription.Proofs.Length.Largest
import Transcription.Proofs.Length.Rests

/-!
# Ties stay short

Neighbouring lengths of the ladder are so close that no more than one of a length fits below the
next one. Rounding to ticks keeps this for notes, and for rests from the 1/64 rest on; of the rests
below it each lasts twice as long as the one before, and two of it may fit. So besides the longest
length, which is taken as often as it fits, a tie has each length once or twice at most.
-/

namespace Transcription

namespace LengthTable

variable {table : LengthTable} {least duration k : Int} {summands : List Int}

/-- Some of the items of a list of numbers that are not negative add up to no more than all. -/
private theorem mul_le_sum {times : Nat} {l : List Int} (hnonneg : ∀ k ∈ l, 0 ≤ k)
    (hcount : times ≤ l.count k) : times * k ≤ l.sum := by
  have hle := (List.replicate_sublist_iff.mpr hcount).sum_le_sum hnonneg
  rwa [List.sum_replicate, nsmul_eq_mul] at hle

/-- A greedy list has lengths of the table only. -/
theorem Greedy.mem_keys (h : table.Greedy least duration summands) (hk : k ∈ summands) :
    k ∈ table.keys := by
  obtain ⟨before, after, rfl⟩ := List.append_of_mem hk
  exact (h.largest before k after rfl).1.1

/-- A greedy list takes a length no more than a number of times if once more would make up for a
longer length. -/
theorem Greedy.count_le (h : table.Greedy least duration summands) (hpos : ∀ k ∈ table.keys, 0 < k)
    (hduration : 0 ≤ duration) {times : Nat} {longer : Int} (hlonger : longer ∈ table.keys)
    (hlt : k < longer) (hle : longer ≤ (times + 1) * k) : summands.count k ≤ times := by
  by_contra hmore
  have hmem : k ∈ summands := List.count_pos_iff.mp (by omega)
  have hnonneg : ∀ k ∈ summands, 0 ≤ k := fun k hk => Int.le_of_lt (hpos k (h.mem_keys hk))
  obtain ⟨before, after, rfl, hnew⟩ := List.eq_append_cons_of_mem hmem
  -- where the length is taken first, the longer one fits as well
  obtain ⟨⟨hkey, hleast, _⟩, hgreatest⟩ := h.largest before k after rfl
  have hcount : times + 1 ≤ (k :: after).count k := by
    rw [List.count_append, List.count_eq_zero.mpr hnew] at hmore
    omega
  have hsum := mul_le_sum (fun k hk => hnonneg k (List.mem_append_right _ hk)) hcount
  have hall := (h.left hduration k hkey hleast).1
  rw [List.sum_append] at hall
  have hfits : longer ≤ k := hgreatest ⟨hlonger, by omega, by push_cast at hsum; omega⟩
  omega

/-- A greedy list that takes only one length more than once has at most the other lengths besides
this one, which it takes as often as it fits. -/
theorem Greedy.length_le (h : table.Greedy least duration summands)
    (hpos : ∀ k ∈ table.keys, 0 < k) (hduration : 0 ≤ duration) (hk : k ∈ table.keys)
    (hleast : least ≤ k) (honce : ∀ k' ≠ k, summands.count k' ≤ 1) :
    (summands.length : Int) + 1 ≤ duration / k + table.keys.length := by
  have hnonneg : ∀ k ∈ summands, 0 ≤ k := fun k hk => Int.le_of_lt (hpos k (h.mem_keys hk))
  have hsum : summands.count k * k ≤ summands.sum := mul_le_sum hnonneg le_rfl
  have hleft := (h.left hduration k hk hleast).1
  have htimes : (summands.count k : Int) ≤ duration / k :=
    (Int.le_ediv_iff_mul_le (hpos k hk)).mpr (by omega)
  have hothers : (k :: summands.filter (· ≠ k)).Nodup := by
    refine List.nodup_cons.mpr ⟨by simp, List.nodup_iff_count_le_one.mpr (fun k' => ?_)⟩
    by_cases heq : k' = k
    · rw [heq, List.count_eq_zero.mpr (by simp)]
      exact Nat.zero_le 1
    · rw [List.count_filter (by simpa using heq)]
      exact honce k' heq
  have hkeys : k :: summands.filter (· ≠ k) ⊆ table.keys := by
    refine List.cons_subset.mpr ⟨hk, fun k' hk' => ?_⟩
    exact h.mem_keys (List.mem_filter.mp hk').1
  have hnumber := (List.subperm_of_subset hothers hkeys).length_le
  have hparts : summands.length = summands.count k + (summands.filter (· ≠ k)).length := by
    rw [List.length_eq_countP_add_countP (· == k), List.count]
    simp [List.countP_eq_length_filter]
  rw [List.length_cons] at hnumber
  omega

end LengthTable

open Number

namespace Length

variable {resolution k : Int} {tokens : List String} {table : LengthTable}

/-! ### Neighbouring lengths -/

/-- The ticks of every token that takes up time are a length. -/
theorem Accurate.ticksIn_mem_keys (h : Accurate resolution tokens table) {token : String}
    (htoken : token ∈ tokens) (hpos : 0 < ticksIn resolution token) :
    ticksIn resolution token ∈ table.keys := by
  obtain ⟨q, hq, hreached⟩ := h.reached token htoken
  have hvalue : quarters token = q := by rw [quarters, hq, Option.getD_some]
  rw [ticksIn, hvalue] at hpos ⊢
  exact hreached (roundHalfUp_pos_iff.mp hpos)

/-- Tokens of which none lasts longer than a number of halves of the one before it. -/
def Close (halves : Nat) (path : List String) : Prop :=
  path.IsChain (fun a b => 2 * quarters b ≤ halves * quarters a)

instance (halves : Nat) (path : List String) : Decidable (Close halves path) :=
  inferInstanceAs (Decidable (path.IsChain _))

/-- From the 1/64 rest on, no length is longer than three halves of the one before it. -/
theorem close_noteTokens : Close 3 ("64" :: noteTokens) := by decide +kernel

/-- No rest length is longer than twice the one before it. -/
theorem close_restTokens : Close 4 ("512" :: restTokens) := by decide +kernel

/-- Above every length that is not below the first of some close tokens but below the last one,
there is a length of about as many halves of it. -/
theorem Accurate.exists_longer (h : Accurate resolution tokens table) (hpos : 0 < resolution)
    {halves : Nat} {first last : String} {path : List String}
    (hclose : Close halves (first :: path)) (hpath : path ⊆ tokens) (hlast : last ∈ path)
    (hk : 0 < k) (hfirst : ticksIn resolution first ≤ k) (hlt : k < ticksIn resolution last) :
    ∃ longer ∈ table.keys, k < longer ∧ 4 * longer ≤ halves * (2 * k + 1) + 2 := by
  induction path generalizing first with
  | nil => simp at hlast
  | cons second path ih =>
    obtain ⟨hstep, hclose⟩ := List.isChain_cons_cons.mp hclose
    obtain ⟨hsecond, hpath⟩ := List.cons_subset.mp hpath
    by_cases hle : ticksIn resolution second ≤ k
    · refine ih hclose hpath (List.mem_of_ne_of_mem ?_ hlast) hle
      rintro rfl
      omega
    · -- the first token above the length has no more than the halves of the token before it
      refine ⟨_, h.ticksIn_mem_keys hsecond (by omega), by omega, ?_⟩
      have hresolution : (0 : Rat) < resolution := by exact_mod_cast hpos
      have hbefore : resolution * quarters first < k + 1 / 2 := roundHalfUp_le_iff.mp hfirst
      have hratio := mul_le_mul_of_nonneg_left hstep hresolution.le
      have hhalves := mul_le_mul_of_nonneg_left hbefore.le (Nat.cast_nonneg (α := Rat) halves)
      have hround := (abs_le.mp (abs_roundHalfUp_sub_le (resolution * quarters second))).2
      have hvalue : 4 * (ticksIn resolution second : Rat) ≤ halves * (2 * k + 1) + 2 := by
        rw [ticksIn]
        linarith
      exact_mod_cast hvalue

/-- The longest length of a ladder is the dotted whole note. -/
theorem isGreatest_keys_tableOf (hpos : 0 < resolution) {ladder : List (Int × String)}
    (hladder : ladder ⊆ restLadder resolution) (hwhole : (6 * resolution, "1.") ∈ ladder) :
    IsGreatest {k | k ∈ (tableOf ladder).keys} (6 * resolution) := by
  refine ⟨mem_keys_tableOf hwhole (show 0 < 6 * resolution by omega), fun k hk => ?_⟩
  obtain ⟨e, he, rfl⟩ := List.mem_map.mp hk
  exact le_of_mem_restLadder hpos (hladder (mem_of_mem_tableOf he).1)

/-- No length of a ladder is below a token that lasts no longer than the tokens of the ladder. -/
theorem ticksIn_le_of_mem_keys (hpos : 0 < resolution) {ladder : List (Int × String)}
    (hladder : ladder ⊆ restLadder resolution) (htokens : (ladder.map Prod.snd).Perm tokens)
    {first : String} (hfirst : ∀ token ∈ tokens, quarters first ≤ quarters token)
    (hk : k ∈ (tableOf ladder).keys) : ticksIn resolution first ≤ k := by
  obtain ⟨e, he, rfl⟩ := List.mem_map.mp hk
  have hstep := (mem_of_mem_tableOf he).1
  have hresolution : (0 : Rat) ≤ resolution := by exact_mod_cast hpos.le
  rw [fst_eq_of_mem_restLadder (hladder hstep)]
  exact roundHalfUp_mono (mul_le_mul_of_nonneg_left
    (hfirst e.2 (htokens.mem_iff.mp (List.mem_map_of_mem hstep))) hresolution)

/-- The lengths of an accurate table take up time. -/
theorem Accurate.pos (h : Accurate resolution tokens table) (hk : k ∈ table.keys) : 0 < k := by
  obtain ⟨e, he, rfl⟩ := List.mem_map.mp hk
  exact (h.near e he).1

/-- A duration is split greedily along an accurate table. -/
theorem Accurate.greedy_split (h : Accurate resolution tokens table) {least duration : Int} :
    table.Greedy least duration ((LengthTable.split table least duration).map Prod.fst) :=
  (LengthTable.picks_iff_greedy (fun _ hk => h.pos hk)).mp
    (LengthTable.picks_split (fun _ hk => h.pos hk) least duration)

/-- A greedy list takes no length except the longest one more than a number of times, if once more
would make up for the next one of some close tokens. -/
theorem Accurate.count_le (h : Accurate resolution tokens table) (hpos : 0 < resolution)
    (hgreatest : IsGreatest {k | k ∈ table.keys} (6 * resolution)) {least duration : Int}
    {summands : List Int} (hgreedy : table.Greedy least duration summands)
    (hduration : 0 ≤ duration) {halves times : Nat} {first : String} {path : List String}
    (hclose : Close halves (first :: path)) (hpath : path ⊆ tokens) (hwhole : "1." ∈ path)
    (hfirst : k ∈ table.keys → ticksIn resolution first ≤ k)
    (hmakes : ∀ longer, 0 < k → 4 * longer ≤ halves * (2 * k + 1) + 2 → longer ≤ (times + 1) * k)
    (hne : k ≠ 6 * resolution) : summands.count k ≤ times := by
  by_cases hmem : k ∈ summands
  · have hkey := hgreedy.mem_keys hmem
    have hlongest : ticksIn resolution "1." = 6 * resolution :=
      (fst_eq_of_mem_restLadder (noteLadder_subset resolution (dottedWhole_mem resolution))).symm
    have hle : k ≤ 6 * resolution := hgreatest.2 hkey
    obtain ⟨longer, hlonger, hlt, hfits⟩ := h.exists_longer hpos hclose hpath hwhole (h.pos hkey)
      (hfirst hkey) (by omega)
    exact hgreedy.count_le (fun k hk => h.pos hk) hduration hlonger hlt
      (hmakes longer (h.pos hkey) hfits)
  · rw [List.count_eq_zero.mpr hmem]
    exact Nat.zero_le times

/-- An accurate table has at most as many lengths as there are tokens. -/
theorem Accurate.length_keys_le (h : Accurate resolution tokens table) :
    table.keys.length ≤ tokens.length := by
  have hvalues : table.values ⊆ tokens := fun token htoken => by
    obtain ⟨e, he, rfl⟩ := List.mem_map.mp htoken
    exact (h.near e he).2.1
  simpa [Table.keys, Table.values] using (List.subperm_of_subset h.distinct hvalues).length_le

section Tables

variable {least duration : Int} {summands : List Int}

/-- The lengths of the note table are accurate, and the dotted whole note is the longest one. -/
theorem noteLengths_longest (hpos : 0 < resolution) :
    Accurate resolution noteTokens (noteLengths resolution) ∧
      IsGreatest {k | k ∈ (noteLengths resolution).keys} (6 * resolution) :=
  ⟨accurate_tableOf (noteLadder_subset resolution) (tokens_noteLadder_perm resolution),
    isGreatest_keys_tableOf hpos (noteLadder_subset resolution) (dottedWhole_mem resolution)⟩

/-- The lengths of the rest table are accurate, and the dotted whole rest is the longest one. -/
theorem restLengths_longest (hpos : 0 < resolution) :
    Accurate resolution restTokens (restLengths resolution) ∧
      IsGreatest {k | k ∈ (restLengths resolution).keys} (6 * resolution) :=
  ⟨accurate_tableOf (List.Subset.refl _) (tokens_restLadder_perm resolution),
    isGreatest_keys_tableOf hpos (List.Subset.refl _)
      (noteLadder_subset resolution (dottedWhole_mem resolution))⟩

/-- A greedy list of note lengths takes each except the dotted whole note once at most. -/
theorem count_noteLengths_le (hpos : 0 < resolution)
    (hgreedy : (noteLengths resolution).Greedy least duration summands) (hduration : 0 ≤ duration)
    (hne : k ≠ 6 * resolution) : summands.count k ≤ 1 := by
  obtain ⟨haccurate, hgreatest⟩ := noteLengths_longest hpos
  have hfirst (hk : k ∈ (noteLengths resolution).keys) : ticksIn resolution "64" ≤ k :=
    ticksIn_le_of_mem_keys hpos (noteLadder_subset resolution) (tokens_noteLadder_perm resolution)
      (by decide +kernel) hk
  exact haccurate.count_le hpos hgreatest hgreedy hduration close_noteTokens
    (List.Subset.refl _) (by decide) hfirst (by omega) hne

/-- A greedy list of rest lengths takes each except the dotted whole rest twice at most. -/
theorem count_restLengths_le_two (hpos : 0 < resolution)
    (hgreedy : (restLengths resolution).Greedy least duration summands) (hduration : 0 ≤ duration)
    (hne : k ≠ 6 * resolution) : summands.count k ≤ 2 := by
  obtain ⟨haccurate, hgreatest⟩ := restLengths_longest hpos
  have hfirst (hk : k ∈ (restLengths resolution).keys) : ticksIn resolution "512" ≤ k :=
    ticksIn_le_of_mem_keys hpos (List.Subset.refl _) (tokens_restLadder_perm resolution)
      (by decide +kernel) hk
  exact haccurate.count_le hpos hgreatest hgreedy hduration close_restTokens
    (List.Subset.refl _) (by decide) hfirst (by omega) hne

/-- From the 1/64 rest on, it takes each except the dotted whole rest once at most. -/
theorem count_restLengths_le_one (hpos : 0 < resolution)
    (hgreedy : (restLengths resolution).Greedy least duration summands) (hduration : 0 ≤ duration)
    (hle : ticksOf resolution 1 16 ≤ k) (hne : k ≠ 6 * resolution) : summands.count k ≤ 1 := by
  obtain ⟨haccurate, hgreatest⟩ := restLengths_longest hpos
  have hfirst : ticksOf resolution 1 16 = ticksIn resolution "64" := by
    have hvalue : quarters "64" = (1 : Int) / (16 : Int) := by decide +kernel
    rw [ticksOf_eq_roundHalfUp (by decide), ticksIn, hvalue]
  exact haccurate.count_le hpos hgreatest hgreedy hduration close_noteTokens
    (by decide) (by decide) (fun _ => hfirst ▸ hle) (by omega) hne

end Tables

/-- **Ties stay short.** Besides dotted whole notes, a split duration has no note length twice and
no rest length more than twice, and from the 1/64 rest on no rest length twice either. -/
theorem ties_short {resolution duration : Int} (hpos : 0 < resolution) (hduration : 0 ≤ duration) :
    let notes := (LengthTable.split (noteLengths resolution) 0 duration).map Prod.fst
    let rests := fun least =>
      (LengthTable.split (restLengths resolution) least duration).map Prod.fst
    (IsGreatest {k | k ∈ (noteLengths resolution).keys} (6 * resolution) ∧
        (∀ k ≠ 6 * resolution, notes.count k ≤ 1) ∧
        notes.length ≤ duration / (6 * resolution) + 16) ∧
      IsGreatest {k | k ∈ (restLengths resolution).keys} (6 * resolution) ∧
      ∀ least, ∀ k ≠ 6 * resolution, (rests least).count k ≤ 2 ∧
        (ticksOf resolution 1 16 ≤ k → (rests least).count k ≤ 1) := by
  intro notes rests
  obtain ⟨hnotes, hnote⟩ := noteLengths_longest hpos
  obtain ⟨hrests, hrest⟩ := restLengths_longest hpos
  have hnoteGreedy : (noteLengths resolution).Greedy 0 duration notes := hnotes.greedy_split
  have hrestGreedy (least : Int) : (restLengths resolution).Greedy least duration (rests least) :=
    hrests.greedy_split
  have honce (k : Int) (hne : k ≠ 6 * resolution) : notes.count k ≤ 1 :=
    count_noteLengths_le hpos hnoteGreedy hduration hne
  refine ⟨⟨hnote, honce, ?_⟩, hrest, fun least k hne =>
    ⟨count_restLengths_le_two hpos (hrestGreedy least) hduration hne, fun hle =>
      count_restLengths_le_one hpos (hrestGreedy least) hduration hle hne⟩⟩
  have hlength := hnoteGreedy.length_le (fun k hk => hnotes.pos hk) hduration hnote.1 (by omega)
    honce
  have hkeys : (noteLengths resolution).keys.length ≤ 17 := hnotes.length_keys_le
  omega

/-- At 40 ticks to a quarter note there is a rest of one tick and one of three ticks, the 1/64 rest,
but none of two ticks, so a gap of two ticks is written as two rests of one tick. -/
theorem ties_short_two_rests :
    let rests := (LengthTable.split (restLengths 40) 1 2).map Prod.fst
    rests = [1, 1] ∧ (∀ k ≠ 240, rests.count k ≤ 2) ∧ ticksOf 40 1 16 = 3 := by
  intro rests
  obtain ⟨-, -, hrests⟩ := ties_short (show 0 < 40 by decide) (show 0 ≤ 2 by decide)
  exact ⟨by decide +kernel, fun k hne => (hrests 1 k hne).1, by decide⟩

end Length

end Transcription
