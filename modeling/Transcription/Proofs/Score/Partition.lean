import Mathlib.Data.List.Sort
import Transcription.Proofs.Reading.RoundTrip
import Transcription.Proofs.Timing.Run

/-!
# Strikes and chords

The strikes of a channel are divided among its chords: consecutive strikes in one slice are written
as one chord, at the onset of the first of them. No strike is lost, and none is written twice.
-/

namespace Transcription

open Writing

/-! ### Lists -/

section Lists

variable {α β : Type}

/-- Joining the items that are kept, each as a list of its own. -/
theorem flatMap_ite_nil (l : List α) (q : α → Prop) [DecidablePred q] (f : α → β) :
    l.flatMap (fun a => if q a then [] else [f a]) = (l.filter (fun a => ¬ q a)).map f := by
  induction l with
  | nil => rfl
  | cons a l ih =>
    rw [List.flatMap_cons, ih]
    by_cases h : q a <;> simp [h]

/-- Joining lists of which one only is kept. -/
theorem flatMap_ite_eq [DecidableEq α] {l : List α} (hnodup : l.Nodup) {b : α} (hb : b ∈ l)
    (m : List β) : l.flatMap (fun a => if a = b then m else []) = m := by
  induction l with
  | nil => simp at hb
  | cons a l ih =>
    rw [List.nodup_cons] at hnodup
    rw [List.flatMap_cons]
    by_cases h : a = b
    · have hrest : l.flatMap (fun a => if a = b then m else []) = [] := by
        refine List.flatMap_eq_nil_iff.mpr (fun c hc => if_neg ?_)
        rintro rfl
        exact hnodup.1 (h ▸ hc)
      rw [if_pos h, hrest, List.append_nil]
    · rcases List.mem_cons.mp hb with rfl | hb
      · exact absurd rfl h
      · rw [if_neg h, List.nil_append, ih hnodup.2 hb]

end Lists

/-! ### The runs of a slice -/

/-- The strikes of a channel in a slice as they are divided among chords: for each chord the ticks
of the strikes that it holds. -/
def Slice.runs (p : Plan) (s : Slice) (channel : Channel) : List (List Int × Chord) :=
  let groups := s.groups p channel
  (groups.filter (fun g => ¬ g.notes.entries = [])).map (fun g =>
    (g.events.map Prod.fst, g.chord p s channel groups))

section Runs

variable {p : Plan} {i : Nat} {s : Slice} {channel : Channel}

/-- The groups with notes hold the events with notes. -/
theorem Group.flatMap_events_filter {shortest : Int} {groups : List Group}
    (hjoined : ∀ g ∈ groups, g.Joined shortest) :
    (groups.filter (fun g => ¬ g.notes.entries = [])).flatMap events =
      (groups.flatMap events).filter (fun e => ¬ e.2.struck.entries = []) := by
  induction groups with
  | nil => rfl
  | cons g groups ih =>
    have hrest := ih (fun g' hg' => hjoined g' (List.mem_cons_of_mem _ hg'))
    obtain ⟨hnotes, hall, hnone⟩ := (hjoined g List.mem_cons_self).notes_eq_nil_iff
    rw [List.flatMap_cons, List.filter_append, ← hrest]
    by_cases hfirst : g.first.struck.entries = []
    · have hskip : (g :: groups).filter (fun g => ¬ g.notes.entries = []) =
          groups.filter (fun g => ¬ g.notes.entries = []) := by simp [hnotes.mpr hfirst]
      rw [hskip, hnone hfirst]
      simp [hfirst]
    · have hkeep : (g :: groups).filter (fun g => ¬ g.notes.entries = []) =
          g :: groups.filter (fun g => ¬ g.notes.entries = []) := by simp [hnotes, hfirst]
      have hsame : g.events.filter (fun e => ¬ e.2.struck.entries = []) = g.events :=
        List.filter_eq_self.mpr (fun e he => by simpa using hall hfirst e he)
      rw [hkeep, List.flatMap_cons, hsame]

/-- The ticks of the runs of a slice are those of its events with notes. -/
theorem Slice.flatMap_runs (p : Plan) (s : Slice) (channel : Channel) :
    (s.runs p channel).flatMap Prod.fst =
      ((s.timelines.get channel).filter (fun e => ¬ e.2.struck.entries = [])).map Prod.fst := by
  have hevents := Group.flatMap_events_filter
    (Group.divide_spec p.tables.shortestRest (s.timelines.get channel)).1
  rw [Group.flatMap_events_divide] at hevents
  rw [← hevents, runs, List.flatMap_map, List.map_flatMap]
  rfl

/-- The ticks of the runs of a slice are those of the strikes that belong to the slice. -/
theorem Recording.HasSlice.mem_runs (hslice : p.recording.HasSlice i s)
    (hrep : p.recording.WellFormed) (channel : Channel) (tick : Int) :
    tick ∈ (s.runs p channel).flatMap Prod.fst ↔
      p.recording.owner tick = i ∧ tick ∈ (p.recording.strikesOn channel.val).keys := by
  rw [Slice.flatMap_runs]
  constructor
  · intro h
    obtain ⟨⟨tick, e⟩, he, rfl⟩ := List.mem_map.mp h
    obtain ⟨hmem, hstruck⟩ := List.mem_filter.mp he
    obtain ⟨howner, hevent⟩ := hslice.mem_timeline.mp hmem
    refine ⟨howner, (Recording.change_or_struck hrep hevent).2.1.mp ?_⟩
    simpa using hstruck
  · rintro ⟨howner, hkey⟩
    obtain ⟨notes, hnotes⟩ := Table.mem_keys_iff.mp hkey
    obtain ⟨e, hevent⟩ : ∃ e, p.recording.eventAt s channel.val tick = some e := by
      simp [Recording.eventAt, hnotes]
    have hstruck := (Recording.change_or_struck hrep hevent).2.1.mpr hkey
    exact List.mem_map.mpr ⟨(tick, e), List.mem_filter.mpr
      ⟨hslice.mem_timeline.mpr ⟨howner, hevent⟩, by simpa using hstruck⟩, rfl⟩

/-- The ticks of the runs of a slice ascend. -/
theorem Recording.HasSlice.runs_pairwise (hslice : p.recording.HasSlice i s) (channel : Channel) :
    ((s.runs p channel).flatMap Prod.fst).Pairwise (· < ·) := by
  rw [Slice.flatMap_runs, List.pairwise_map]
  exact (hslice.timeline_pairwise channel).filter _

/-- The runs of all slices, one after the other, hold the strikes of the channel in their order. -/
theorem Plan.flatMap_runs (hrep : p.recording.WellFormed) {slices : List Slice}
    (hslices : p.recording.HasSlices slices) (channel : Channel) :
    (slices.flatMap (fun s => s.runs p channel)).flatMap Prod.fst =
      (p.recording.strikesOn channel.val).keys := by
  have hflat : (slices.flatMap (fun s => s.runs p channel)).flatMap Prod.fst =
      slices.zipIdx.flatMap (fun s => (s.1.runs p channel).flatMap Prod.fst) := by
    rw [List.flatMap_assoc]
    nth_rewrite 1 [← List.zipIdx_map_fst 0 slices]
    rw [List.flatMap_map]
  have hstart {tick : Int} (h : tick ∈ (p.recording.strikesOn channel.val).keys) : 0 ≤ tick := by
    obtain ⟨notes, hnotes⟩ := Table.mem_keys_iff.mp h
    exact (hrep.struck channel.val _ (Table.mem_entries_iff.mpr hnotes)).1
  rw [hflat]
  -- both lists ascend, so it is enough that they have the same members
  refine List.Pairwise.eq_of_mem_iff (r := (· < ·)) ?_ (Table.keys_pairwise _) (fun tick => ?_)
  · refine List.pairwise_flatMap.mpr ⟨fun s hs => (hslices.hasSlice s hs).runs_pairwise channel,
      ?_⟩
    apply (pairwise_zipIdx slices).imp_of_mem
    intro a b ha hb hlt x hx y hy
    obtain ⟨hx, _⟩ := ((hslices.hasSlice a ha).mem_runs hrep channel x).mp hx
    obtain ⟨hy, hkey⟩ := ((hslices.hasSlice b hb).mem_runs hrep channel y).mp hy
    by_contra hnot
    have := p.recording.owner_mono (hstart hkey) (show y ≤ x by omega)
    omega
  · rw [List.mem_flatMap]
    constructor
    · rintro ⟨s, hs, hmem⟩
      exact (((hslices.hasSlice s hs).mem_runs hrep channel tick).mp hmem).2
    · intro hkey
      have hlt : p.recording.owner tick < slices.length := by
        have := p.recording.owner_lt tick
        rwa [← hslices.bounds, List.length_map] at this
      have hs : (slices[p.recording.owner tick], p.recording.owner tick) ∈ slices.zipIdx :=
        List.mk_mem_zipIdx_iff_getElem?.mpr (List.getElem?_eq_getElem hlt)
      exact ⟨_, hs, ((hslices.hasSlice _ hs).mem_runs hrep channel tick).mpr ⟨rfl, hkey⟩⟩

end Runs

/-! ### The chords of a transcription -/

/-- The chords among the actions for a group: one if the group has notes. -/
theorem Group.filterMap_actions (p : Plan) (s : Slice) (channel : Channel) (groups : List Group)
    (g : Group) : (g.actions p s channel groups).filterMap Action.chord? =
      if g.notes.entries = [] then [] else [g.chord p s channel groups] := by
  unfold actions
  by_cases hchange : g.first.change = true <;> by_cases hnotes : g.notes.entries = [] <;>
    simp [hchange, hnotes, Action.chord?, List.filterMap_cons]

/-- The chords among the actions for a channel of a slice are those of its runs. -/
theorem Call.filterMap_channelBlock (p : Plan) (s : Slice) (channel : Channel) :
    ((channelBlock s channel).actions p).filterMap Action.chord? =
      (s.runs p channel).map Prod.snd := by
  simp only [actions, Slice.runs, List.map_map]
  split
  · rename_i hempty
    simp [Slice.groups, hempty, Group.divide]
  · rw [List.filterMap_cons_none rfl, List.filterMap_flatMap]
    simp only [Group.filterMap_actions]
    rw [flatMap_ite_nil]
    rfl

/-- The chords of a channel among the actions for a slice are those of its runs. -/
theorem Plan.filterMap_sliceActions (p : Plan) (s : Slice × Nat) (channel : Channel) :
    ((p.sliceActions s).filterMap Action.chord?).filter (fun c => c.channel = channel) =
      (s.1.runs p channel).map Prod.snd := by
  have hblock (channel' : Channel) :
      ((s.1.runs p channel').map Prod.snd).filter (fun c => c.channel = channel) =
        if channel' = channel then (s.1.runs p channel).map Prod.snd else [] := by
    have hchannel : ∀ c ∈ (s.1.runs p channel').map Prod.snd, c.channel = channel' := by
      intro c hc
      obtain ⟨run, hrun, rfl⟩ := List.mem_map.mp hc
      obtain ⟨g, _, rfl⟩ := List.mem_map.mp hrun
      rfl
    split
    · rename_i heq
      subst heq
      exact List.filter_eq_self.mpr (fun c hc => by simpa using hchannel c hc)
    · rename_i hne
      apply List.filter_eq_nil_iff.mpr
      intro c hc
      rw [hchannel c hc]
      simpa using hne
  rw [sliceActions_eq, content, List.filterMap_cons_none rfl, List.filterMap_cons_none rfl,
    List.filterMap_flatMap, List.filter_flatMap]
  simp only [Call.filterMap_channelBlock, hblock]
  exact flatMap_ite_eq (List.nodup_finRange _) (List.mem_finRange channel) _

/-- The chords of a channel in a transcription are those of the runs of all slices. -/
theorem Plan.chords_eq (p : Plan) (slices : List Slice) (channel : Channel) :
    ((p.actions slices).filterMap Action.chord?).filter (fun c => c.channel = channel) =
      (slices.flatMap (fun s => s.runs p channel)).map Prod.snd := by
  rw [actions_eq, List.filterMap_flatMap, List.filter_flatMap, List.map_flatMap]
  simp only [filterMap_sliceActions]
  nth_rewrite 2 [← List.zipIdx_map_fst 0 slices]
  rw [List.flatMap_map]

/-! ### What a chord holds -/

/-- A chord holds the strikes of its channel at some ticks. They lie in its slice, the first of them
is its onset, and the others follow in less than the shortest rest. The chord sounds the pitches of
these strikes, each once and from the lowest one up, and of several strikes of a pitch the earliest
gives the velocity and the release. -/
structure Recording.Holds (r : Recording) (t : LengthTables) (slices : List Slice)
    (ticks : List Int) (c : Chord) : Prop where
  onset : ticks.head? = some c.tick
  close : ∀ tick ∈ ticks.tail, tick - c.tick < t.shortestRest
  sameSlice : ∀ tick ∈ ticks, slices[r.owner tick]? = some c.slice
  ascending : (c.tones.map Score.Tone.pitch).Pairwise (· < ·)
  pitches : ∀ pitch, pitch ∈ c.tones.map Score.Tone.pitch ↔
    ∃ tick ∈ ticks, pitch ∈ (r.struckAt c.channel.val tick).keys
  earliest : ∀ tone ∈ c.tones, ∃ tick ∈ ticks,
    (∀ tick' ∈ ticks, tick' < tick → tone.pitch ∉ (r.struckAt c.channel.val tick').keys) ∧
    ∃ velocity, (r.struckAt c.channel.val tick).get? tone.pitch = some velocity ∧
      let note := Recording.noteIn c.slice c.channel.val tick tone.pitch velocity
      tone.velocity = note.velocity ∧ tone.held = note.offTick - c.tick ∧
        tone.written = t.write c.tick c.next note

section Holds

variable {p : Plan} {i : Nat} {s : Slice} {channel : Channel} {slices : List Slice}

/-- A pitch of a group is struck at the tick of one of its events, and at no earlier one. -/
theorem Recording.HasSlice.exists_strike (hslice : p.recording.HasSlice i s) {g : Group}
    (hg : g ∈ s.groups p channel) {pitch : Int} {note : Note}
    (hnote : g.notes.get? pitch = some note) :
    ∃ tick ∈ g.events.map Prod.fst,
      (∀ tick' ∈ g.events.map Prod.fst, tick' < tick →
        pitch ∉ (p.recording.struckAt channel.val tick').keys) ∧
      ∃ velocity, (p.recording.struckAt channel.val tick).get? pitch = some velocity ∧
        note = Recording.noteIn s channel.val tick pitch velocity := by
  have hevent {e : Int × Event} (he : e ∈ g.events) :
      p.recording.eventAt s channel.val e.1 = some e.2 :=
    (hslice.mem_timeline.mp (Group.events_subset hg he)).2
  have hsorted : g.events.Pairwise (fun a b => a.1 < b.1) :=
    (Group.divide_pairwise _ (hslice.timeline_pairwise channel)).1 g hg
  -- the first event of the group with the pitch gives the note, and events are ordered by tick
  rw [Group.get?_notes, List.findSome?_eq_some_iff] at hnote
  obtain ⟨earlier, e, later, hsplit, hstruck, hnone⟩ := hnote
  have he : e ∈ g.events := by
    rw [hsplit]
    simp
  rw [Recording.get?_struck (hevent he)] at hstruck
  obtain ⟨velocity, hvelocity, rfl⟩ := Option.map_eq_some_iff.mp hstruck
  refine ⟨e.1, List.mem_map.mpr ⟨e, he, rfl⟩, ?_, velocity, hvelocity, rfl⟩
  intro tick' htick' hlt hkey
  obtain ⟨e', he', rfl⟩ := List.mem_map.mp htick'
  obtain ⟨velocity', hvelocity'⟩ := Table.mem_keys_iff.mp hkey
  have hearlier : e' ∈ earlier := by
    rw [hsplit, List.pairwise_append] at hsorted
    rw [hsplit] at he'
    rcases List.mem_append.mp he' with hmem | hmem
    · exact hmem
    · rcases List.mem_cons.mp hmem with rfl | hmem
      · omega
      · have := (List.pairwise_cons.mp hsorted.2.1).1 e' hmem
        omega
  have hget := hnone e' hearlier
  rw [Recording.get?_struck (hevent he'), hvelocity'] at hget
  cases hget

/-- The pitches of a group are those that are struck at the ticks of its events. -/
theorem Recording.HasSlice.mem_pitches (hslice : p.recording.HasSlice i s) {g : Group}
    (hg : g ∈ s.groups p channel) {pitch : Int} :
    pitch ∈ g.notes.keys ↔
      ∃ tick ∈ g.events.map Prod.fst, pitch ∈ (p.recording.struckAt channel.val tick).keys := by
  constructor
  · intro hkey
    obtain ⟨note, hnote⟩ := Table.mem_keys_iff.mp hkey
    obtain ⟨tick, htick, _, velocity, hvelocity, _⟩ := hslice.exists_strike hg hnote
    exact ⟨tick, htick, Table.mem_keys_iff.mpr ⟨velocity, hvelocity⟩⟩
  · rintro ⟨tick, htick, hkey⟩
    obtain ⟨e, he, rfl⟩ := List.mem_map.mp htick
    obtain ⟨velocity, hvelocity⟩ := Table.mem_keys_iff.mp hkey
    have hevent := (hslice.mem_timeline.mp (Group.events_subset hg he)).2
    have hstruck : (e.2.struck.get? pitch).isSome := by
      rw [Recording.get?_struck hevent, hvelocity]
      rfl
    have hsome : (g.notes.get? pitch).isSome := by
      rw [Group.get?_notes, List.findSome?_isSome_iff]
      exact ⟨e, he, hstruck⟩
    exact Table.mem_keys_iff.mpr (Option.isSome_iff_exists.mp hsome)

/-- The chord of a run holds the strikes at its ticks. -/
theorem Recording.HasSlice.holds (hslice : p.recording.HasSlice i s)
    (hget : slices[i]? = some s) {run : List Int × Chord} (hrun : run ∈ s.runs p channel) :
    run.2.channel = channel ∧ p.recording.Holds p.tables slices run.1 run.2 := by
  obtain ⟨g, hg, rfl⟩ := List.mem_map.mp hrun
  obtain ⟨hg, _⟩ := List.mem_filter.mp hg
  have htones : (Score.tones p (Group.nextOnset? (s.groups p channel) g.tick) g).map
      Score.Tone.pitch = g.notes.keys := by
    rw [Score.tones, List.map_map]
    rfl
  refine ⟨rfl, rfl, fun tick htick => ?_, fun tick htick => ?_, ?_, fun pitch => ?_,
    fun tone htone => ?_⟩
  · obtain ⟨e, he, rfl⟩ := List.mem_map.mp htick
    have hjoins := (Group.divide_spec _ _).1 g hg e he
    simp only [Group.joins, decide_eq_true_eq] at hjoins
    exact hjoins.2.2.2
  · obtain ⟨e, he, rfl⟩ := List.mem_map.mp htick
    rw [(hslice.mem_timeline.mp (Group.events_subset hg he)).1]
    exact hget
  · exact htones ▸ Table.keys_pairwise _
  · change pitch ∈ (Score.tones p _ g).map Score.Tone.pitch ↔ _
    rw [htones]
    exact hslice.mem_pitches hg
  · obtain ⟨n, hn, rfl⟩ := List.mem_map.mp htone
    obtain ⟨tick, htick, hfirst, velocity, hvelocity, hnote⟩ :=
      hslice.exists_strike hg (Table.mem_entries_iff.mp hn)
    refine ⟨tick, htick, hfirst, velocity, hvelocity, ?_⟩
    rw [hnote]
    exact ⟨rfl, rfl, rfl⟩

end Holds

/-- A reader hears the chords of a channel in their order. -/
theorem Plan.Hears.heard_eq {p : Plan} {actions : List Action} {s : Score} {R : Reading}
    (h : p.Hears actions s R []) (channel : Channel) :
    (R.heard.filter (fun h => h.part.channel = channel)).map Heard.sounds =
      ((actions.filterMap Action.chord?).filter (fun c => c.channel = channel)).map
        (Chord.sounds p.tables) := by
  obtain ⟨done, _, hchords, hchannels, hheard⟩ := h
  rw [List.filterMap_nil, List.append_nil] at hchords
  have hleft : (R.heard.filter (fun h => h.part.channel = channel)).map Heard.sounds =
      ((R.heard.map (fun h => (h.part, h.sounds))).filter (fun x => x.1.channel = channel)).map
        Prod.snd := by
    rw [List.filter_map, List.map_map]
    rfl
  have hsame : done.filter (fun d => d.1.channel = channel) =
      done.filter (fun d => d.2.channel = channel) :=
    List.filter_congr (fun d hd => by rw [hchannels d hd])
  rw [hleft, hheard, ← hchords, List.filter_map, List.filter_map, List.map_map, List.map_map]
  exact congrArg (List.map _) hsame

/-- **No strike is lost, and none is written twice.** For every channel the ticks of its strikes, in
ascending order, are divided into consecutive runs. There is one run for each chord of the channel
that is written and that a reader hears, in order, and the chord holds the strikes of its run. -/
theorem Recording.strikes_partitioned {document : Json} {r : Recording}
    (hdocument : Recording.ofDocument document = .ok r) (settings : Settings) :
    let p := Plan.of r settings
    ∃ slices s R, r.slices = .ok slices ∧ p.score slices = .ok s ∧
      Reading.ofTexts? p.tables (s.lines.toList.map Line.text) = some R ∧
      ∀ channel : Channel, ∃ runs : List (List Int × Chord),
        runs.flatMap Prod.fst = (r.strikesOn channel.val).keys ∧
        (∀ run ∈ runs, run.2.channel = channel ∧ r.Holds p.tables slices run.1 run.2) ∧
        ((p.actions slices).filterMap Action.chord?).filter (fun c => c.channel = channel) =
          runs.map Prod.snd ∧
        (R.heard.filter (fun h => h.part.channel = channel)).map Heard.sounds =
          runs.map (fun run => run.2.sounds p.tables) := by
  intro p
  have hwellFormed := Recording.ofDocument_wellFormed hdocument
  have hp : p.Proper := Plan.proper_of hwellFormed settings
  obtain ⟨slices, hslices, hhas⟩ := Recording.exists_slices hwellFormed
  have hcalls : ∀ call ∈ Call.ofSlices slices, call.slice ∈ slices := by
    intro call hcall
    obtain ⟨s, hs, hcall⟩ := List.mem_flatMap.mp hcall
    rw [Call.slice_of_mem hcall]
    exact List.fst_mem_of_mem_zipIdx hs
  obtain ⟨s, R, hwrite, hagrees, hhears⟩ := Agrees.calls hp hhas hcalls
  rw [calls_eq] at hwrite
  refine ⟨slices, s, R, hslices, Plan.score_eq_ok.mpr hwrite, hagrees.ofTexts?, ?_⟩
  intro channel
  have hchords := p.chords_eq slices channel
  refine ⟨slices.flatMap (fun s => s.runs p channel),
    Plan.flatMap_runs hwellFormed hhas channel, fun run hrun => ?_, hchords, ?_⟩
  · obtain ⟨s, hs, hrun⟩ := List.mem_flatMap.mp hrun
    obtain ⟨i, hget, hslice⟩ := hhas.exists_place hs
    exact hslice.holds hget hrun
  · have hheard := hhears.heard_eq channel
    change _ = (((p.actions slices).filterMap Action.chord?).filter _).map _ at hheard
    rw [hheard, hchords, List.map_map]
    rfl

/-- A pitch that is struck again in a strum of two strikes, and a later strike in another slice. -/
theorem Recording.strikes_partitioned_strum :
    ∃ r slices s R,
      Recording.ofDocument (.ofSequence
        [("0", [(0, 60, 480), (3, 60, 240), (3, 64, 480), (480, 67, 480)])] [(480, 90)]) = .ok r ∧
      r.slices = .ok slices ∧ (Plan.of r {}).score slices = .ok s ∧
      Reading.ofTexts? (Plan.of r {}).tables (s.lines.toList.map Line.text) = some R ∧
      ∃ runs : List (List Int × Chord), runs.flatMap Prod.fst = [0, 3, 480] ∧
        (∀ run ∈ runs, r.Holds (Plan.of r {}).tables slices run.1 run.2) ∧
        (R.heard.filter (fun h => h.part.channel = 0)).map Heard.sounds =
          runs.map (fun run => run.2.sounds (Plan.of r {}).tables) := by
  obtain ⟨r, hdocument, hr⟩ := exists_eq_ok (show (Recording.ofDocument (.ofSequence
    [("0", [(0, 60, 480), (3, 60, 240), (3, 64, 480), (480, 67, 480)])] [(480, 90)])).toOption.any
      (fun r => (r.strikesOn 0).keys = [0, 3, 480]) = true by decide +kernel)
  obtain ⟨slices, s, R, hslices, hscore, hread, hall⟩ :=
    Recording.strikes_partitioned hdocument {}
  obtain ⟨runs, hticks, hholds, _, hheard⟩ := hall 0
  exact ⟨r, slices, s, R, hdocument, hslices, hscore, hread, runs,
    hticks.trans (of_decide_eq_true hr), fun run hrun => (hholds run hrun).2, hheard⟩

end Transcription
