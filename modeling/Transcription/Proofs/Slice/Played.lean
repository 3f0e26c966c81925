import Transcription.Proofs.Recording.Spans
import Transcription.Proofs.Slice.Filling

/-!
# Programs that are played

A choice of program is played if a note is struck before the next choice. At a strike the program is
therefore the one of any earlier tick, unless a program that is played is chosen in between; and
every program that is played is the one at some strike.
-/

namespace Transcription

namespace Recording

variable {r : Recording} {channel : Int}

/-- The program of a channel stays the same as long as no program is chosen. -/
theorem programAt_eq_of_keys {tick tick' : Int} (hle : tick ≤ tick')
    (hnone : ∀ key ∈ (r.programsOn channel).keys, key ≤ tick' → key ≤ tick) :
    r.programAt channel tick = r.programAt channel tick' := by
  have htake (l : List (Int × Int)) (hl : ∀ e ∈ l, e.1 ≤ tick' → e.1 ≤ tick) :
      l.takeWhile (fun e => ¬ tick < e.1) = l.takeWhile (fun e => ¬ tick' < e.1) := by
    induction l with
    | nil => rfl
    | cons e rest ih =>
      have hrest := ih (fun e' he' => hl e' (List.mem_cons_of_mem _ he'))
      have hfirst := hl e List.mem_cons_self
      by_cases hin : e.1 ≤ tick
      · rw [List.takeWhile_cons_of_pos (by simpa using hin),
          List.takeWhile_cons_of_pos (by simp only [decide_eq_true_eq]; omega), hrest]
      · rw [List.takeWhile_cons_of_neg (by simpa using hin),
          List.takeWhile_cons_of_neg (by simp only [decide_eq_true_eq]; omega)]
  rw [programAt, programAt, Table.lastUpTo?, Table.lastUpTo?, htake]
  exact fun e he => hnone e.1 (List.mem_map.mpr ⟨e, he, rfl⟩)

/-- A choice of program is played if there is a strike after it and before the next choice. -/
theorem mem_playedChanges {tick : Int} : tick ∈ r.playedChanges channel ↔
    tick ∈ (r.programsOn channel).keys ∧ ∃ strike ∈ (r.strikesOn channel).keys, tick ≤ strike ∧
      ∀ later ∈ (r.programsOn channel).keys, tick < later → strike < later := by
  have hplayed {span : Int × Option Int} (hspan : span ∈ r.programSpans channel) :
      r.isPlayed channel span = true ↔ ∃ strike ∈ (r.strikesOn channel).keys, span.1 ≤ strike ∧
        ∀ later ∈ (r.programsOn channel).keys, span.1 < later → strike < later := by
    rw [isPlayed, List.any_eq_true]
    exact exists_congr (fun strike => and_congr_right (fun _ => inSpan_iff_of_mem hspan strike))
  constructor
  · intro h
    obtain ⟨span, hspan, rfl⟩ := List.mem_map.mp h
    obtain ⟨hspan, hstruck⟩ := List.mem_filter.mp hspan
    exact ⟨(r.divided channel).begins ▸ List.mem_map_of_mem hspan, (hplayed hspan).mp hstruck⟩
  · rintro ⟨hkey, hstruck⟩
    rw [← (r.divided channel).begins] at hkey
    obtain ⟨span, hspan, rfl⟩ := List.mem_map.mp hkey
    exact List.mem_map.mpr ⟨span, List.mem_filter.mpr ⟨hspan, (hplayed hspan).mpr hstruck⟩, rfl⟩

/-- At a strike the program is the one of an earlier tick unless a program that is played is chosen
in between. -/
theorem programAt_eq_of_played {tick strike : Int} (hle : tick ≤ strike)
    (hstrike : strike ∈ (r.strikesOn channel).keys)
    (hnone : ∀ change ∈ r.playedChanges channel, change ≤ strike → change ≤ tick) :
    r.programAt channel tick = r.programAt channel strike := by
  refine programAt_eq_of_keys hle (fun key hkey hbefore => ?_)
  -- the last choice up to the strike is played by the strike
  cases hlast : ((r.programsOn channel).keys.filter (fun key => key ≤ strike)).max? with
  | none =>
    have hmem : key ∈ (r.programsOn channel).keys.filter (fun key => key ≤ strike) :=
      List.mem_filter.mpr ⟨hkey, by simpa using hbefore⟩
    rw [List.max?_eq_none_iff.mp hlast] at hmem
    cases hmem
  | some last =>
    obtain ⟨hmem, hmax⟩ := List.max?_eq_some_iff.mp hlast
    obtain ⟨hchosen, hlastBefore⟩ := List.mem_filter.mp hmem
    have hlastBefore : last ≤ strike := by simpa using hlastBefore
    have hall {key : Int} (hkey : key ∈ (r.programsOn channel).keys) (hbefore : key ≤ strike) :
        key ≤ last := hmax key (List.mem_filter.mpr ⟨hkey, by simpa using hbefore⟩)
    have hplayed : last ∈ r.playedChanges channel := by
      refine mem_playedChanges.mpr
        ⟨hchosen, strike, hstrike, hlastBefore, fun later hlater hlt => ?_⟩
      by_contra hnot
      have := hall hlater (by omega)
      omega
    have := hall hkey hbefore
    have := hnone last hplayed hlastBefore
    omega

/-- A program that is played is the one at some strike. -/
theorem exists_strike_of_played {tick : Int} (h : tick ∈ r.playedChanges channel) :
    ∃ strike ∈ (r.strikesOn channel).keys,
      r.programAt channel tick = r.programAt channel strike := by
  obtain ⟨_, strike, hstrike, hle, hnext⟩ := mem_playedChanges.mp h
  refine ⟨strike, hstrike, programAt_eq_of_keys hle (fun key hkey hbefore => ?_)⟩
  by_contra hlater
  have := hnext key hkey (by omega)
  omega

end Recording

end Transcription
