import Mathlib.Data.List.Chain
import Transcription.Proofs.Score.Partition
import Transcription.Proofs.Slice.Played

/-!
# The turns of a channel

A channel changes its part only where a program that is played is chosen, and these choices lie in
order among its chords. So the part of a chord is that of the turn before it, it is the part of
every strike of the chord, and the parts of all turns are those of the programs at some strike.
-/

namespace Transcription


/-- A place where a channel may change its part: a choice of program, or a chord. -/
structure Turn where
  /-- The tick of the choice or of the chord. -/
  tick : Int
  /-- Whether there is a chord. -/
  sounds : Bool

/-- Turns in order: by their ticks, and at one tick the choice of program first. -/
def Turn.Before (a b : Turn) : Prop :=
  a.tick < b.tick ∨ a.tick = b.tick ∧ a.sounds = false ∧ b.sounds = true

/-- The turn of a channel that an action is, if it is one. -/
def Action.turn? (channel : Channel) : Action → Option Turn
  | change channel' tick => if channel' = channel then some ⟨tick, false⟩ else none
  | chord c => if c.channel = channel then some ⟨c.tick, true⟩ else none
  | _ => none

/-- The turns of a group: the change of program first, then the notes. -/
def Group.turns (g : Group) : List Turn :=
  (if g.first.change then [⟨g.tick, false⟩] else []) ++
    (if g.notes.entries = [] then [] else [⟨g.tick, true⟩])

/-- The turns of a channel in a slice. -/
def Slice.turns (p : Plan) (s : Slice) (channel : Channel) : List Turn :=
  (s.groups p channel).flatMap Group.turns

section Turns

variable {p : Plan} {i : Nat} {s : Slice} {channel : Channel} {slices : List Slice}

/-- The turns of a channel among the actions for any channel of a slice. -/
theorem Call.filterMap_turn (p : Plan) (s : Slice) (channel channel' : Channel) :
    ((channelBlock s channel').actions p).filterMap (Action.turn? channel) =
      if channel' = channel then s.turns p channel else [] := by
  have hgroup (groups : List Group) (g : Group) :
      (g.actions p s channel' groups).filterMap (Action.turn? channel) =
        if channel' = channel then g.turns else [] := by
    unfold Group.actions Group.turns
    by_cases hchange : g.first.change = true <;> by_cases hnotes : g.notes.entries = [] <;>
      by_cases hchannel : channel' = channel <;>
      simp [hchange, hnotes, hchannel, Action.turn?, Group.chord]
  simp only [actions, Slice.turns]
  split
  · rename_i hempty
    by_cases hchannel : channel' = channel
    · subst hchannel
      simp [Slice.groups, hempty, Group.divide]
    · simp [hchannel]
  · rw [List.filterMap_cons_none rfl, List.filterMap_flatMap]
    simp only [hgroup]
    by_cases hchannel : channel' = channel
    · subst hchannel
      simp
    · simp [hchannel]

/-- The turns of a channel in a transcription are those in all slices. -/
theorem Plan.filterMap_turn (p : Plan) (slices : List Slice) (channel : Channel) :
    (p.actions slices).filterMap (Action.turn? channel) =
      slices.flatMap (fun s => s.turns p channel) := by
  have hslice (s : Slice × Nat) : (p.sliceActions s).filterMap (Action.turn? channel) =
      s.1.turns p channel := by
    rw [sliceActions_eq, content, List.filterMap_cons_none rfl, List.filterMap_cons_none rfl,
      List.filterMap_flatMap]
    simp only [Call.filterMap_turn]
    exact flatMap_ite_eq (List.nodup_finRange _) (List.mem_finRange channel) _
  rw [actions_eq, List.filterMap_flatMap]
  simp only [hslice]
  nth_rewrite 2 [← List.zipIdx_map_fst 0 slices]
  rw [List.flatMap_map]

/-- A turn of a group is at its tick, and sounds if the group has notes. -/
theorem Group.mem_turns {g : Group} {turn : Turn} (h : turn ∈ g.turns) :
    turn.tick = g.tick ∧ (turn.sounds = true → g.notes.entries ≠ []) ∧
      (turn.sounds = false → g.first.change = true) := by
  rcases List.mem_append.mp h with h | h
  · split at h
    · rename_i hchange
      cases List.mem_singleton.mp h
      simp [hchange]
    · cases h
  · split at h
    · cases h
    · rename_i hnotes
      cases List.mem_singleton.mp h
      simp [hnotes]

/-- The turns of a group are in order. -/
theorem Group.turns_pairwise (g : Group) : g.turns.Pairwise Turn.Before := by
  unfold turns
  by_cases hchange : g.first.change = true <;> by_cases hnotes : g.notes.entries = [] <;>
    simp [hchange, hnotes, Turn.Before]

namespace Recording

/-- A turn of a slice belongs to the slice: a chord begins at a strike, and a change of program is
at a choice that is played. -/
theorem HasSlice.mem_turns (hslice : p.recording.HasSlice i s) (hrep : p.recording.WellFormed)
    {turn : Turn} (h : turn ∈ s.turns p channel) :
    p.recording.owner turn.tick = i ∧
      (turn.sounds = true → turn.tick ∈ (p.recording.strikesOn channel.val).keys) ∧
      (turn.sounds = false → turn.tick ∈ p.recording.playedChanges channel.val) := by
  obtain ⟨g, hg, hturn⟩ := List.mem_flatMap.mp h
  obtain ⟨htick, hnotes, hchange⟩ := Group.mem_turns hturn
  obtain ⟨howner, hevent⟩ := hslice.mem_groups hg
  rw [htick]
  refine ⟨howner, fun hsounds => (hslice.notes_iff hrep hg).mp (hnotes hsounds),
    fun hsilent => ?_⟩
  exact (change_or_struck hrep hevent).1.mp (hchange hsilent)

/-- A choice of program that is played begins a group of its slice. -/
theorem HasSlice.exists_group (hslice : p.recording.HasSlice i s) (hrep : p.recording.WellFormed)
    {tick : Int} (howner : p.recording.owner tick = i)
    (hplayed : tick ∈ p.recording.playedChanges channel.val) :
    ∃ g ∈ s.groups p channel, g.tick = tick ∧ g.first.change = true := by
  obtain ⟨e, hevent⟩ : ∃ e, p.recording.eventAt s channel.val tick = some e := by
    unfold eventAt
    cases (p.recording.strikesOn channel.val).get? tick <;> simp [hplayed]
  have hchange := (change_or_struck hrep hevent).1.mpr hplayed
  have hmem := hslice.mem_timeline.mpr ⟨howner, hevent⟩
  rw [← Group.flatMap_events_divide p.tables.shortestRest (s.timelines.get channel)] at hmem
  obtain ⟨g, hg, hmem⟩ := List.mem_flatMap.mp hmem
  refine ⟨g, hg, ?_⟩
  rcases List.mem_cons.mp hmem with heq | hfolded
  · cases heq
    exact ⟨rfl, hchange⟩
  · have hjoins := (Group.divide_spec _ _).1 g hg _ hfolded
    simp [Group.joins, hchange] at hjoins

/-- The tick of a turn is not before the start. -/
theorem HasSlice.turn_nonneg (hslice : p.recording.HasSlice i s) (hrep : p.recording.WellFormed)
    {turn : Turn} (h : turn ∈ s.turns p channel) : 0 ≤ turn.tick := by
  obtain ⟨_, hstrike, hchange⟩ := hslice.mem_turns hrep h
  cases hsounds : turn.sounds with
  | true =>
    obtain ⟨notes, hnotes⟩ := Table.mem_keys_iff.mp (hstrike hsounds)
    exact (hrep.struck _ _ (Table.mem_entries_iff.mpr hnotes)).1
  | false =>
    have hkey := (p.recording.playedChanges_sublist _).subset (hchange hsounds)
    obtain ⟨program, hprogram⟩ := Table.mem_keys_iff.mp hkey
    exact (hrep.chosen _ _ (Table.mem_entries_iff.mpr hprogram)).1

/-- The turns of a channel in a slice are in order. -/
theorem HasSlice.turns_pairwise (hslice : p.recording.HasSlice i s) (channel : Channel) :
    (s.turns p channel).Pairwise Turn.Before := by
  refine List.pairwise_flatMap.mpr ⟨fun g _ => g.turns_pairwise, ?_⟩
  apply (hslice.groups_pairwise channel).imp
  intro g h hlt a ha b hb
  have hg := (Group.mem_turns ha).1
  have hh := (Group.mem_turns hb).1
  exact .inl (by omega)

/-- The turns of a channel in all slices are in order. -/
theorem HasSlices.turns_pairwise (hslices : p.recording.HasSlices slices)
    (hrep : p.recording.WellFormed) (channel : Channel) :
    (slices.flatMap (fun s => s.turns p channel)).Pairwise Turn.Before := by
  have hflat : slices.flatMap (fun s => s.turns p channel) =
      slices.zipIdx.flatMap (fun s => s.1.turns p channel) := by
    nth_rewrite 1 [← List.zipIdx_map_fst 0 slices]
    rw [List.flatMap_map]
  rw [hflat]
  refine List.pairwise_flatMap.mpr
    ⟨fun s hs => (hslices.hasSlice s hs).turns_pairwise channel, ?_⟩
  apply (pairwise_zipIdx slices).imp_of_mem
  intro s s' hs hs' hlt a ha b hb
  obtain ⟨ha, _⟩ := (hslices.hasSlice s hs).mem_turns hrep ha
  have hstart := (hslices.hasSlice s' hs').turn_nonneg hrep hb
  obtain ⟨hb, _⟩ := (hslices.hasSlice s' hs').mem_turns hrep hb
  refine .inl ?_
  by_contra hnot
  have := p.recording.owner_mono hstart (show b.tick ≤ a.tick by omega)
  omega

/-- Every choice of program that is played is a turn. -/
theorem HasSlices.mem_turns (hslices : p.recording.HasSlices slices)
    (hrep : p.recording.WellFormed) {tick : Int}
    (hplayed : tick ∈ p.recording.playedChanges channel.val) :
    (⟨tick, false⟩ : Turn) ∈ slices.flatMap (fun s => s.turns p channel) := by
  have hlt : p.recording.owner tick < slices.length := by
    rw [← List.length_map Slice.bounds, hslices.bounds]
    exact p.recording.owner_lt tick
  have hslice := hslices.hasSlice (slices[p.recording.owner tick], p.recording.owner tick)
    (List.mk_mem_zipIdx_iff_getElem?.mpr (List.getElem?_eq_getElem hlt))
  obtain ⟨g, hg, rfl, hchange⟩ := hslice.exists_group hrep rfl hplayed
  refine List.mem_flatMap.mpr ⟨_, List.getElem_mem hlt, List.mem_flatMap.mpr ⟨g, hg, ?_⟩⟩
  exact List.mem_append_left _ (by simp [hchange])

/-- Between two turns that follow one another no program that is played is chosen, so at a chord the
program is still the one of the turn before. -/
theorem HasSlices.turns_isChain (hslices : p.recording.HasSlices slices)
    (hrep : p.recording.WellFormed) (channel : Channel) :
    (slices.flatMap (fun s => s.turns p channel)).IsChain (fun a b => b.sounds = true →
      p.recording.partAt channel a.tick = p.recording.partAt channel b.tick) := by
  have hordered := hslices.turns_pairwise hrep channel
  have hstrike : ∀ turn ∈ slices.flatMap (fun s => s.turns p channel), turn.sounds = true →
      turn.tick ∈ (p.recording.strikesOn channel.val).keys := by
    intro turn hturn
    obtain ⟨s, hs, hturn⟩ := List.mem_flatMap.mp hturn
    obtain ⟨i, _, hslice⟩ := hslices.exists_place hs
    exact (hslice.mem_turns hrep hturn).2.1
  have hplayed {tick : Int} (h : tick ∈ p.recording.playedChanges channel.val) :=
    hslices.mem_turns hrep h
  generalize slices.flatMap (fun s => s.turns p channel) = turns at hordered hstrike hplayed
  rw [List.isChain_iff_getElem]
  intro i hi hsounds
  have hbefore {j k : Nat} (hj : j < turns.length) (hk : k < turns.length) (hlt : j < k) :=
    List.pairwise_iff_getElem.mp hordered j k hj hk hlt
  have hnext := hbefore (by omega) hi (Nat.lt_succ_self i)
  have hle : turns[i].tick ≤ turns[i + 1].tick := by
    rcases hnext with hlt | ⟨heq, _⟩ <;> omega
  have hprogram := programAt_eq_of_played hle (hstrike _ (List.getElem_mem hi) hsounds)
    (fun change hchange hupTo => ?_)
  · rw [partAt, partAt, hprogram]
  · obtain ⟨k, hk, hturn⟩ := List.getElem_of_mem (hplayed hchange)
    have htick : turns[k].tick = change := congrArg Turn.tick hturn
    have hsilent : turns[k].sounds = false := congrArg Turn.sounds hturn
    rcases Nat.lt_trichotomy k i with hki | rfl | hki
    · rcases hbefore hk (by omega) hki with hlt | ⟨heq, _⟩ <;> omega
    · omega
    · -- a change after the first turn would come after the chord as well
      have hne : k ≠ i + 1 := by
        rintro rfl
        rw [hsounds] at hsilent
        cases hsilent
      rcases hbefore hi hk (by omega) with hlt | ⟨_, _, htrue⟩
      · omega
      · rw [hsilent] at htrue
        cases htrue

/-- All strikes of a group are at ticks with the program of its first one. -/
theorem HasSlice.partAt_eq (hslice : p.recording.HasSlice i s) (hrep : p.recording.WellFormed)
    {g : Group} (hg : g ∈ s.groups p channel) (hnotes : g.notes.entries ≠ []) {tick : Int}
    (htick : tick ∈ g.events.map Prod.fst) :
    p.recording.partAt channel tick = p.recording.partAt channel g.tick := by
  obtain ⟨e, he, rfl⟩ := List.mem_map.mp htick
  have hevents := hslice.timeline_pairwise channel
  rw [← Group.flatMap_events_divide p.tables.shortestRest (s.timelines.get channel),
    List.pairwise_flatMap] at hevents
  have hle : g.tick ≤ e.1 := by
    rcases List.mem_cons.mp he with rfl | hfolded
    · exact Int.le_refl _
    · have := (List.pairwise_cons.mp (hevents.1 g hg)).1 e hfolded
      omega
  have hmem := hslice.mem_timeline.mp (Group.events_subset hg he)
  obtain ⟨hfirst, _⟩ := hslice.mem_groups hg
  have hstrike : e.1 ∈ (p.recording.strikesOn channel.val).keys := by
    have hjoined := ((Group.divide_spec _ _).1 g hg).notes_eq_nil_iff
    exact (change_or_struck hrep hmem.2).2.1.mp
      (hjoined.2.1 (fun hnil => hnotes (hjoined.1.mpr hnil)) e he)
  have hprogram := programAt_eq_of_played hle hstrike (fun change hchange hupTo => ?_)
  · rw [Recording.partAt, Recording.partAt, hprogram]
  · by_contra hnot
    have hturn : (⟨g.tick, true⟩ : Turn) ∈ s.turns p channel :=
      List.mem_flatMap.mpr ⟨g, hg, List.mem_append_right _ (by simp [hnotes])⟩
    have hstart : 0 ≤ g.tick := hslice.turn_nonneg hrep hturn
    -- a change between two strikes of a group is in the slice and begins another group
    have hlow := p.recording.owner_mono hstart (show g.tick ≤ change by omega)
    have hhigh := p.recording.owner_mono (show 0 ≤ change by omega) hupTo
    obtain ⟨h, hh, hat, _⟩ :=
      hslice.exists_group hrep (show p.recording.owner change = i by omega) hchange
    have hlt := Group.rel_of_lt (hslice.groups_pairwise channel) hevents.2 hg hh
      (show g.tick < h.tick by omega) e he (h.tick, h.first) List.mem_cons_self
    simp only at hlt
    omega

/-- Every strike of a run has the part of its chord, which is a turn. -/
theorem HasSlice.partAt_run (hslice : p.recording.HasSlice i s) (hrep : p.recording.WellFormed)
    {run : List Int × Chord} (hrun : run ∈ s.runs p channel) {tick : Int} (htick : tick ∈ run.1) :
    p.recording.partAt channel tick = p.recording.partAt channel run.2.tick ∧
      (⟨run.2.tick, true⟩ : Turn) ∈ s.turns p channel := by
  obtain ⟨g, hg, rfl⟩ := List.mem_map.mp hrun
  obtain ⟨hg, hnotes⟩ := List.mem_filter.mp hg
  have hnotes : g.notes.entries ≠ [] := by simpa using hnotes
  refine ⟨hslice.partAt_eq hrep hg hnotes htick, List.mem_flatMap.mpr ⟨g, hg, ?_⟩⟩
  exact List.mem_append_right _ (by simp [hnotes, Group.chord])

/-- The parts of the turns of a channel are those of the programs at its strikes. -/
theorem HasSlices.exists_turn_iff (hslices : p.recording.HasSlices slices)
    (hrep : p.recording.WellFormed) {id : PartId} :
    (∃ turn ∈ slices.flatMap (fun s => s.turns p channel),
        p.recording.partAt channel turn.tick = id) ↔
      ∃ tick ∈ (p.recording.strikesOn channel.val).keys,
        p.recording.partAt channel tick = id := by
  constructor
  · rintro ⟨turn, hturn, rfl⟩
    obtain ⟨s, hs, hturn⟩ := List.mem_flatMap.mp hturn
    obtain ⟨i, _, hslice⟩ := hslices.exists_place hs
    obtain ⟨_, hstrike, hchange⟩ := hslice.mem_turns hrep hturn
    cases hsounds : turn.sounds with
    | true => exact ⟨turn.tick, hstrike hsounds, rfl⟩
    | false =>
      obtain ⟨tick, htick, hprogram⟩ := exists_strike_of_played (hchange hsounds)
      refine ⟨tick, htick, ?_⟩
      rw [partAt, partAt, hprogram]
  · rintro ⟨tick, htick, rfl⟩
    rw [← Plan.flatMap_runs hrep hslices channel] at htick
    obtain ⟨run, hrun, htick⟩ := List.mem_flatMap.mp htick
    obtain ⟨s, hs, hrun⟩ := List.mem_flatMap.mp hrun
    obtain ⟨i, _, hslice⟩ := hslices.exists_place hs
    obtain ⟨heq, hturn⟩ := hslice.partAt_run hrep hrun htick
    exact ⟨_, List.mem_flatMap.mpr ⟨s, hs, hturn⟩, heq.symm⟩

end Recording

end Turns

end Transcription
