import Mathlib.Data.List.Chain
import Mathlib.Data.Rat.Floor
import Mathlib.Tactic.Linarith
import Transcription.Proofs.Length.Checked

/-!
# How accurate the length tables are

A token says which part of a whole note it lasts, so at a resolution it has an exact value in ticks.
The tables have the nearest whole ticks of these values. At low resolutions some values vanish and
others fall together; from 48 ticks to a quarter note on no note length is lost, and from 128 on no
rest length.
-/

namespace Transcription

namespace Number

/-- The nearest integer; of two nearest ones the larger one. -/
def roundHalfUp (q : Rat) : Int := ⌊q + 1 / 2⌋

/-- A rounded number is off by at most one half. -/
theorem abs_roundHalfUp_sub_le (q : Rat) : |(roundHalfUp q : Rat) - q| ≤ 1 / 2 := by
  have hle := Int.floor_le (q + 1 / 2)
  have hlt := Int.lt_floor_add_one (q + 1 / 2)
  rw [roundHalfUp, abs_le]
  constructor <;> linarith

/-- Larger numbers are not rounded to smaller ones. -/
theorem roundHalfUp_mono {q q' : Rat} (h : q ≤ q') : roundHalfUp q ≤ roundHalfUp q' :=
  Int.floor_le_floor (by linarith)

/-- Numbers that are at least one apart are rounded to different ones. -/
theorem roundHalfUp_lt {q q' : Rat} (h : q + 1 ≤ q') : roundHalfUp q < roundHalfUp q' := by
  have hnext : roundHalfUp q + 1 ≤ roundHalfUp q' := by
    rw [roundHalfUp, ← Int.floor_add_one]
    exact Int.floor_le_floor (by linarith)
  omega

/-- A number is rounded to at most an integer if it is less than one half above it. -/
theorem roundHalfUp_le_iff {q : Rat} {n : Int} : roundHalfUp q ≤ n ↔ q < n + 1 / 2 := by
  rw [← Int.lt_add_one_iff, roundHalfUp, Int.floor_lt]
  push_cast
  constructor <;> intro h <;> linarith

/-- The numbers of at least one half are rounded to positive ones. -/
theorem roundHalfUp_pos_iff {q : Rat} : 0 < roundHalfUp q ↔ 1 / 2 ≤ q := by
  rw [← Int.not_le, roundHalfUp_le_iff]
  simp

end Number

open Number

namespace Length

/-! ### Exact values -/

/-- How many quarter notes a token lasts: its number divides the four quarters of a whole note, and
a dot adds one half. -/
def quarters? (token : String) : Option Rat :=
  if token.toList.getLast? = some '.' then
    (Text.readInt (String.ofList token.toList.dropLast)).toOption.map (fun n => 6 / n)
  else (Text.readInt token).toOption.map (fun n => 4 / n)

/-- How many quarter notes a token lasts, if it is one. -/
def quarters (token : String) : Rat := (quarters? token).getD 0

/-- The tokens of all note lengths, from the shortest one up. -/
def noteTokens : List String :=
  ["48", "32", "24", "32.", "16", "12", "16.", "8", "6", "8.", "4", "3", "4.", "2", "2.", "1", "1."]

/-- The tokens of all rest lengths, from the shortest one up. -/
def restTokens : List String := ["512", "256", "128", "64"] ++ noteTokens

/-- The tokens of all lengths last some part of a quarter note. -/
theorem quarters?_of_mem {token : String} (h : token ∈ restTokens) :
    quarters? token = some (quarters token) := by
  have hall : ∀ token ∈ restTokens, quarters? token = some (quarters token) := by decide +kernel
  exact hall token h

/-- The ticks of a token: its exact value, rounded half up. -/
def ticksIn (resolution : Int) (token : String) : Int := roundHalfUp (resolution * quarters token)

variable {resolution : Int}

/-- The ticks of a part of a quarter note are its exact value, rounded half up. -/
theorem ticksOf_eq_roundHalfUp {divisor : Int} (h : 0 < divisor) (resolution factor : Int) :
    ticksOf resolution factor divisor = roundHalfUp (resolution * (factor / divisor)) := by
  obtain ⟨d, rfl⟩ : ∃ d : Nat, divisor = d := ⟨divisor.toNat, by omega⟩
  have hd : (d : Rat) ≠ 0 := by exact_mod_cast (show d ≠ 0 by omega)
  have hvalue : (resolution : Rat) * (factor / (d : Int)) + 1 / 2 =
      ((2 * resolution * factor + d : Int) : Rat) / ((2 * d : Nat) : Rat) := by
    push_cast
    field_simp
  rw [ticksOf_of_pos h, roundHalfUp, hvalue, Rat.floor_intCast_div_natCast]
  push_cast
  rfl

/-- The steps of the ladder have the ticks of their tokens. -/
theorem fst_eq_of_mem_restLadder {e : Int × String} (he : e ∈ restLadder resolution) :
    e.1 = ticksIn resolution e.2 := by
  have hforms : ∀ r ∈ noteRungs, 0 < r.divisor ∧
      quarters (tripletToken r.base) = (r.factor * 2 : Int) / (r.divisor * 3 : Int) ∧
      quarters (toString r.base) = r.factor / r.divisor ∧
      quarters (toString r.base ++ ".") = (r.factor * 3 : Int) / (r.divisor * 2 : Int) := by
    decide +kernel
  have hplain : ∀ r ∈ restRungs, 0 < r.divisor ∧
      quarters (toString r.base) = r.factor / r.divisor := by
    decide +kernel
  have hwhole : quarters "1" = (4 : Int) / (1 : Int) ∧
      quarters "1." = (4 * 3 : Int) / (2 : Int) := by
    decide +kernel
  rcases List.mem_append.mp he with he | he
  · rcases List.mem_append.mp he with he | he
    · obtain ⟨r, hr, he⟩ := List.mem_flatMap.mp he
      obtain ⟨hdivisor, htriplet, hbase, hdotted⟩ := hforms r hr
      simp only [Rung.forms, Rung.plain, List.mem_cons, List.not_mem_nil, or_false] at he
      rcases he with rfl | rfl | rfl
      · rw [ticksIn, htriplet, ticksOf_eq_roundHalfUp (by omega)]
      · rw [ticksIn, hbase, ticksOf_eq_roundHalfUp hdivisor]
      · rw [ticksIn, hdotted, ticksOf_eq_roundHalfUp (by omega)]
    · simp only [List.mem_cons, List.not_mem_nil, or_false] at he
      rcases he with rfl | rfl
      · rw [ticksIn, hwhole.1, ticksOf_eq_roundHalfUp (by decide)]
      · rw [ticksIn, hwhole.2, ticksOf_eq_roundHalfUp (by decide)]
  · obtain ⟨r, hr, rfl⟩ := List.mem_map.mp he
    obtain ⟨hdivisor, hbase⟩ := hplain r hr
    rw [Rung.plain, ticksIn, hbase, ticksOf_eq_roundHalfUp hdivisor]

/-- The tokens of the note ladder are those of all note lengths. -/
theorem tokens_noteLadder_perm (resolution : Int) :
    ((noteLadder resolution).map Prod.snd).Perm noteTokens := by
  change ((noteLadder 1).map Prod.snd).Perm noteTokens
  decide +kernel

/-- The tokens of the rest ladder are those of all rest lengths. -/
theorem tokens_restLadder_perm (resolution : Int) :
    ((restLadder resolution).map Prod.snd).Perm restTokens := by
  rw [tokens_restLadder]
  decide +kernel

/-- From a resolution on that parts all exact values by at least one tick, the table of a ladder has
all steps of the ladder. -/
theorem entries_tableOf_perm {parts : Int} {ladder : List (Int × String)} {tokens : List String}
    (hparts : 0 < parts) (hle : parts ≤ resolution) (htokens : (ladder.map Prod.snd).Perm tokens)
    (hladder : ∀ e ∈ ladder, e.1 = ticksIn resolution e.2)
    (hshort : ∀ token ∈ tokens, 1 / parts ≤ quarters token)
    (hgaps : tokens.IsChain (fun a b => quarters a + 1 / parts ≤ quarters b)) :
    (tableOf ladder).entries.Perm ladder := by
  have hpos : (0 : Rat) < parts := by exact_mod_cast hparts
  have hone : 1 ≤ resolution * (1 / parts : Rat) := by
    rw [mul_one_div, one_le_div hpos]
    exact_mod_cast hle
  have hresolution : (0 : Rat) ≤ resolution := by exact_mod_cast (show 0 ≤ resolution by omega)
  have htaken : ladder.filter (fun e => 0 < e.1) = ladder := by
    refine List.filter_eq_self.mpr (fun e he => decide_eq_true ?_)
    have hvalue := mul_le_mul_of_nonneg_left
      (hshort e.2 (htokens.mem_iff.mp (List.mem_map_of_mem he))) hresolution
    rw [hladder e he]
    exact roundHalfUp_pos_iff.mpr (by linarith)
  have hascending : (tokens.map (ticksIn resolution)).Pairwise (· < ·) := by
    rw [← List.isChain_iff_pairwise, List.isChain_map]
    refine hgaps.imp (fun a b hgap => roundHalfUp_lt ?_)
    have hvalue := mul_le_mul_of_nonneg_left hgap hresolution
    rw [mul_add] at hvalue
    linarith
  have hticks : ladder.map Prod.fst = (ladder.map Prod.snd).map (ticksIn resolution) := by
    rw [List.map_map]
    exact List.map_congr_left hladder
  have hnodup : (ladder.map Prod.fst).Nodup := by
    rw [hticks, (htokens.map _).nodup_iff]
    exact hascending.imp Int.ne_of_lt
  rw [tableOf, htaken]
  exact Table.entries_ofList_perm hnodup

/-! ### Accurate tables -/

/-- A table that is accurate for the tokens of a ladder. -/
structure Accurate (resolution : Int) (tokens : List String) (table : LengthTable) : Prop where
  /-- Every length takes up time, and is within half a tick of the exact value of its token. -/
  near : ∀ e ∈ table.entries, 0 < e.1 ∧ e.2 ∈ tokens ∧
    ∃ q, quarters? e.2 = some q ∧ |(e.1 : Rat) - resolution * q| ≤ 1 / 2
  /-- Every token has an exact value, which is a length when it is rounded half up, unless it is
  less than half a tick. -/
  reached : ∀ token ∈ tokens, ∃ q, quarters? token = some q ∧
    (1 / 2 ≤ resolution * q → roundHalfUp (resolution * q) ∈ table.keys)
  /-- No two lengths have one token. -/
  distinct : table.values.Nodup
  /-- Lengths of the table can be joined into one text. -/
  joined : ∀ summands, (∀ k ∈ summands, k ∈ table.keys) →
    ∃ tokens, table.tokens? summands = .ok tokens
  /-- The joined text tells the lengths. -/
  determined : ∀ summands summands' tokens tokens', table.tokens? summands = .ok tokens →
    table.tokens? summands' = .ok tokens' → tie tokens = tie tokens' → summands = summands'

end Length

namespace LengthTable

variable {table : LengthTable}

/-- Lengths that have tokens are those of summands from the table. -/
theorem exists_summands_of_tokens? {lengths : List Int} {tokens : List String}
    (hok : table.tokens? lengths = .ok tokens) :
    ∃ summands : List (Int × String), (∀ e ∈ summands, e ∈ table.entries) ∧
      summands.map Prod.fst = lengths ∧ summands.map Prod.snd = tokens := by
  induction lengths generalizing tokens with
  | nil =>
    cases hok
    exact ⟨[], by simp⟩
  | cons k lengths ih =>
    rw [tokens?, List.mapM_cons] at hok
    obtain ⟨token, hfirst, hok⟩ := bind_eq_ok.mp hok
    obtain ⟨tokens', hrest, hok⟩ := bind_eq_ok.mp hok
    cases hok
    obtain ⟨summands, hmem, rfl, rfl⟩ := ih hrest
    cases hget : table.get? k with
    | none => simp [hget] at hfirst
    | some token' =>
      simp only [hget, Except.ok.injEq] at hfirst
      subst hfirst
      have hentry : (k, token') ∈ table.entries := Table.mem_entries_iff.mpr hget
      exact ⟨(k, token') :: summands, List.forall_mem_cons.mpr ⟨hentry, hmem⟩, rfl, rfl⟩

/-- The text that joins lengths of a ladder's table tells the lengths. -/
theorem OfLadder.eq_of_tie_eq (h : table.OfLadder) {lengths lengths' : List Int}
    {tokens tokens' : List String} (hok : table.tokens? lengths = .ok tokens)
    (hok' : table.tokens? lengths' = .ok tokens') (heq : Length.tie tokens = Length.tie tokens') :
    lengths = lengths' := by
  obtain ⟨summands, hmem, rfl, rfl⟩ := exists_summands_of_tokens? hok
  obtain ⟨summands', hmem', rfl, rfl⟩ := exists_summands_of_tokens? hok'
  have heq : text summands = text summands' := heq
  have hnil {summands : List (Int × String)} (hmem : ∀ e ∈ summands, e ∈ table.entries)
      (hempty : text summands = text []) : summands = [] := by
    by_contra hne
    exact (h.isLength_text hmem hne).1 (congrArg String.toList hempty)
  rcases eq_or_ne summands' [] with rfl | hne'
  · rw [hnil hmem heq]
  · rcases eq_or_ne summands [] with rfl | hne
    · exact absurd (hnil hmem' heq.symm) hne'
    · have hread := h.summands?_text hmem hne
      rw [heq, h.summands?_text hmem' hne'] at hread
      rw [Option.some.inj hread]

end LengthTable

namespace Length

variable {resolution : Int}

/-- The table of a part of the rest ladder is accurate for its tokens. -/
theorem accurate_tableOf {ladder : List (Int × String)} {tokens : List String}
    (hladder : ladder ⊆ restLadder resolution) (htokens : (ladder.map Prod.snd).Perm tokens) :
    Accurate resolution tokens (tableOf ladder) := by
  have hofLadder : (tableOf ladder).OfLadder := ⟨resolution, fun e he =>
    ⟨hladder (mem_of_mem_tableOf he).1, (mem_of_mem_tableOf he).2⟩⟩
  have hrest (token : String) (htoken : token ∈ tokens) : token ∈ restTokens := by
    obtain ⟨e, he, rfl⟩ := List.mem_map.mp (htokens.mem_iff.mpr htoken)
    exact (tokens_restLadder_perm resolution).mem_iff.mp (List.mem_map_of_mem (hladder he))
  constructor
  case near =>
    intro e he
    obtain ⟨hstep, hpos⟩ := mem_of_mem_tableOf he
    have htoken : e.2 ∈ tokens := htokens.mem_iff.mp (List.mem_map_of_mem hstep)
    refine ⟨hpos, htoken, _, quarters?_of_mem (hrest _ htoken), ?_⟩
    rw [fst_eq_of_mem_restLadder (hladder hstep)]
    exact abs_roundHalfUp_sub_le _
  case reached =>
    intro token htoken
    refine ⟨_, quarters?_of_mem (hrest _ htoken), fun hhalf => ?_⟩
    obtain ⟨e, he, rfl⟩ := List.mem_map.mp (htokens.mem_iff.mpr htoken)
    have hticks : e.1 = roundHalfUp (resolution * quarters e.2) :=
      fst_eq_of_mem_restLadder (hladder he)
    exact hticks ▸ mem_keys_tableOf he (hticks ▸ roundHalfUp_pos_iff.mpr hhalf)
  case distinct =>
    refine List.Nodup.map_on (fun e he e' he' => hofLadder.eq_of_token_eq he he') ?_
    exact List.Nodup.of_map Prod.fst ((tableOf ladder).keys_pairwise.imp Int.ne_of_lt)
  case joined =>
    intro summands hmem
    refine ⟨_, mapM_eq_ok (g := fun k => ((tableOf ladder).get? k).getD "") (fun k hk => ?_)⟩
    obtain ⟨token, htoken⟩ := Table.mem_keys_iff.mp (hmem k hk)
    simp [htoken]
  case determined =>
    exact fun _ _ _ _ hok hok' heq => hofLadder.eq_of_tie_eq hok hok' heq

/-- **The length tables are accurate at every resolution.** From 48 ticks to a quarter note on the
note table has all steps of its ladder, and from 128 on the rest table does. -/
theorem lengths_accurate (resolution : Int) :
    Accurate resolution noteTokens (noteLengths resolution) ∧
      Accurate resolution restTokens (restLengths resolution) ∧
      (48 ≤ resolution → (noteLengths resolution).entries.Perm (noteLadder resolution) ∧
        (noteLengths resolution).keys.length = 17) ∧
      (128 ≤ resolution → (restLengths resolution).entries.Perm (restLadder resolution) ∧
        (restLengths resolution).keys.length = 21) := by
  have hnotes := noteLadder_subset resolution
  refine ⟨accurate_tableOf hnotes (tokens_noteLadder_perm resolution),
    accurate_tableOf (List.Subset.refl _) (tokens_restLadder_perm resolution), fun hle => ?_,
    fun hle => ?_⟩
  · have hperm := entries_tableOf_perm (by decide) hle (tokens_noteLadder_perm resolution)
      (fun e he => fst_eq_of_mem_restLadder (hnotes he)) (by decide +kernel) (by decide +kernel)
    exact ⟨hperm, (List.length_map _).trans hperm.length_eq⟩
  · have hperm := entries_tableOf_perm (by decide) hle (tokens_restLadder_perm resolution)
      (fun e he => fst_eq_of_mem_restLadder he) (by decide +kernel) (by decide +kernel)
    exact ⟨hperm, (List.length_map _).trans hperm.length_eq⟩

/-- At 5 ticks to a quarter note one tick is the 1/16 note: of the shorter note lengths three are
rounded to one tick as well, and the shortest one vanishes. At 45 ticks there is still one number of
ticks for two of the note lengths, from 48 ticks on for none. -/
theorem lengths_accurate_low :
    ((noteLengths 5).get? 1 = some "16" ∧
        ∃ q, quarters? "16" = some q ∧ |((1 : Int) : Rat) - (5 : Int) * q| ≤ 1 / 2) ∧
      (noteLengths 45).keys.length = 16 ∧ (noteLengths 48).keys.length = 17 ∧
      (restLengths 128).keys.length = 21 := by
  have hfirst : (noteLengths 5).get? 1 = some "16" := by decide +kernel
  obtain ⟨hlow, -⟩ := lengths_accurate 5
  obtain ⟨-, -, hnotes, -⟩ := lengths_accurate 48
  obtain ⟨-, -, -, hrests⟩ := lengths_accurate 128
  have hnear := (hlow.near (1, "16") (Table.mem_entries_iff.mpr hfirst)).2.2
  exact ⟨⟨hfirst, hnear⟩, by decide +kernel, (hnotes (by decide)).2, (hrests (by decide)).2⟩

end Length

end Transcription
