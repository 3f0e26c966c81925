import Transcription.Proofs.Reading.Contents
import Transcription.Proofs.Reading.Printing
import Transcription.Proofs.Score.Partition
import Transcription.Proofs.Score.Rewriting

/-!
# What writing fills in

The slices of a recording have no lengths in their notes. Writing them leaves everything else as it
was, and gives a length to exactly the notes that are printed: of the strikes that are folded into
one chord the first of each pitch is printed with its length, and the later ones keep none.
-/

namespace Transcription

/-! ### Strikes in order -/

namespace Timeline

variable {t : Timeline} {tick pitch : Int}

/-- No earlier one of some ticks strikes a pitch. -/
def First (t : Timeline) (ticks : List Int) (tick pitch : Int) : Prop :=
  ∀ tick' ∈ ticks, tick' < tick → t.note? tick' pitch = none

/-- In a timeline with distinct ticks a note is found in the event at its tick. -/
theorem note?_eq_some_iff (hnodup : t.ticks.Nodup) {n : Note} :
    t.note? tick pitch = some n ↔ ∃ e, (tick, e) ∈ t ∧ e.struck.get? pitch = some n := by
  constructor
  · intro h
    obtain ⟨e, hfound, hnote⟩ := Option.bind_eq_some_iff.mp h
    have htick : e.1 = tick := by simpa using List.find?_some hfound
    exact ⟨e.2, htick ▸ List.mem_of_find?_eq_some hfound, hnote⟩
  · rintro ⟨e, he, hnote⟩
    exact (note?_of_mem hnodup he pitch).trans hnote

/-- There are notes at the ticks of a timeline only. -/
theorem mem_ticks_of_note? (hnodup : t.ticks.Nodup) {n : Note}
    (h : t.note? tick pitch = some n) : tick ∈ t.ticks := by
  obtain ⟨e, he, _⟩ := (note?_eq_some_iff hnodup).mp h
  exact List.mem_map.mpr ⟨(tick, e), he, rfl⟩

/-- In an ascending timeline no tick before the earliest strike of a pitch strikes it. -/
theorem first_of_earliest? (hsorted : t.Pairwise (fun a b => a.1 < b.1)) {n : Note}
    (h : t.earliest? pitch = some (tick, n)) : t.First t.ticks tick pitch := by
  intro tick' _ hlt
  obtain ⟨earlier, e, later, hsplit, hfound, hnone⟩ := List.findSome?_eq_some_iff.mp h
  obtain ⟨_, _, heq⟩ := Option.map_eq_some_iff.mp hfound
  cases heq
  -- a strike at an earlier tick would be among the events before the one that was found
  by_contra hstruck
  obtain ⟨n', hn'⟩ := Option.ne_none_iff_exists'.mp hstruck
  have hnodup : t.ticks.Nodup := (List.pairwise_map.mpr hsorted).imp Int.ne_of_lt
  obtain ⟨e', he', hnote⟩ := (note?_eq_some_iff hnodup).mp hn'
  rw [hsplit, List.pairwise_append] at hsorted
  rw [hsplit] at he'
  rcases List.mem_append.mp he' with hmem | hmem
  · have hget := hnone _ hmem
    rw [hnote] at hget
    cases hget
  · rcases List.mem_cons.mp hmem with rfl | hmem
    · exact absurd hlt (Int.lt_irrefl _)
    · have := (List.pairwise_cons.mp hsorted.2.1).1 _ hmem
      omega

/-- In an ascending timeline the earliest strike of a pitch is the one before which there is
none. -/
theorem earliest?_eq_some_iff (hsorted : t.Pairwise (fun a b => a.1 < b.1)) {n : Note} :
    t.earliest? pitch = some (tick, n) ↔
      t.note? tick pitch = some n ∧ t.First t.ticks tick pitch := by
  have hnodup : t.ticks.Nodup := (List.pairwise_map.mpr hsorted).imp Int.ne_of_lt
  constructor
  · intro h
    exact ⟨(note?_eq_some_iff hnodup).mpr (exists_of_earliest? h), first_of_earliest? hsorted h⟩
  · rintro ⟨hnote, hfirst⟩
    obtain ⟨e, he, hstruck⟩ := (note?_eq_some_iff hnodup).mp hnote
    have hsome : (t.earliest? pitch).isSome := by
      rw [earliest?, List.findSome?_isSome_iff]
      exact ⟨_, he, by rw [hstruck]; rfl⟩
    obtain ⟨⟨tick', n'⟩, hearliest⟩ := Option.isSome_iff_exists.mp hsome
    have hnote' := (note?_eq_some_iff hnodup).mpr (exists_of_earliest? hearliest)
    -- two strikes before which there is none are at the same tick
    rcases Int.lt_trichotomy tick' tick with hlt | rfl | hlt
    · rw [hfirst tick' (mem_ticks_of_note? hnodup hnote') hlt] at hnote'
      cases hnote'
    · rw [hnote'] at hnote
      cases hnote
      exact hearliest
    · rw [first_of_earliest? hsorted hearliest tick (mem_ticks_of_note? hnodup hnote) hlt] at hnote
      cases hnote

end Timeline

namespace Group

variable {shortest : Int} {timeline : Timeline} {g : Group} {tick pitch : Int}

/-- At the ticks of a group its events have the notes of the timeline. -/
theorem note?_events (hsorted : timeline.Pairwise (fun a b => a.1 < b.1))
    (hg : g ∈ divide shortest timeline) (htick : tick ∈ g.events.ticks) (pitch : Int) :
    g.events.note? tick pitch = timeline.note? tick pitch := by
  obtain ⟨e, he, rfl⟩ := List.mem_map.mp htick
  have hevents := (divide_pairwise shortest hsorted).1 g hg
  rw [Timeline.note?_of_mem ((List.pairwise_map.mpr hevents).imp Int.ne_of_lt) he,
    Timeline.note?_of_mem ((List.pairwise_map.mpr hsorted).imp Int.ne_of_lt) (events_subset hg he)]

/-- The notes of a group in a division are the first strikes of their pitches at its ticks. -/
theorem mem_placed (hsorted : timeline.Pairwise (fun a b => a.1 < b.1))
    (hg : g ∈ divide shortest timeline) {n : Note} :
    (pitch, tick, n) ∈ g.placed.entries ↔ tick ∈ g.events.ticks ∧
      timeline.note? tick pitch = some n ∧ timeline.First g.events.ticks tick pitch := by
  have hevents := (divide_pairwise shortest hsorted).1 g hg
  have hfirst : g.events.First g.events.ticks tick pitch ↔
      timeline.First g.events.ticks tick pitch :=
    forall₂_congr (fun tick' htick' => by rw [note?_events hsorted hg htick'])
  rw [← hfirst]
  constructor
  · intro hmem
    have hget : g.placed.get? pitch = some (tick, n) := Table.mem_entries_iff.mp hmem
    have htick : tick ∈ g.events.ticks :=
      g.tick_of_mem_places (List.mem_map.mpr ⟨_, hmem, rfl⟩)
    rw [get?_placed, Timeline.earliest?_eq_some_iff hevents, note?_events hsorted hg htick] at hget
    exact ⟨htick, hget⟩
  · rintro ⟨htick, hfound⟩
    rw [← note?_events hsorted hg htick, ← Timeline.earliest?_eq_some_iff hevents,
      ← get?_placed] at hfound
    exact Table.mem_entries_iff.mpr hfound

end Group

/-! ### Notes after writing -/

/-- What writing leaves of a note at a tick of a group: the length it was written with, if it has a
place in the group. -/
theorem Timeline.note?_written (t : LengthTables) {timeline : Timeline}
    (hsorted : timeline.Pairwise (fun a b => a.1 < b.1)) {g : Group}
    (hg : g ∈ Group.divide t.shortestRest timeline) {tick : Int} (htick : tick ∈ g.events.ticks)
    (pitch : Int) :
    let next := Group.nextOnset? (Group.divide t.shortestRest timeline) g.tick
    (timeline.written t).note? tick pitch = (timeline.note? tick pitch).map (fun n =>
      if (pitch, tick) ∈ g.places then { n with written := some (t.write g.tick next n) }
      else n) := by
  intro next
  obtain ⟨e, he, rfl⟩ := List.mem_map.mp htick
  have hnodup : timeline.ticks.Nodup := (List.pairwise_map.mpr hsorted).imp Int.ne_of_lt
  have hevents : g.events.ticks.Nodup :=
    (List.pairwise_map.mpr ((Group.divide_pairwise _ hsorted).1 g hg)).imp Int.ne_of_lt
  set mark : Int → Int → Note → Note := fun tick pitch n =>
    if (pitch, tick) ∈ g.places then { n with written := some (t.write g.tick next n) } else n
  have hmarked : (e.1, e.2.mapNotes (mark e.1)) ∈ timeline.written t := by
    refine List.mem_flatMap.mpr ⟨g, hg, ?_⟩
    rw [g.markWritten_events hevents]
    exact List.mem_map.mpr ⟨e, he, rfl⟩
  have hwritten : (timeline.written t).ticks.Nodup := by rwa [ticks_written]
  have hafter := note?_of_mem hwritten hmarked pitch
  rw [Event.struck_mapNotes, Table.get?_map] at hafter
  rw [note?_of_mem hnodup (Group.events_subset hg he)]
  exact hafter

/-- The timelines of a slice that is written. -/
theorem Slice.get_written (t : LengthTables) (s : Slice) (lane : Channel) :
    (s.written t).timelines.get lane = (s.timelines.get lane).written t := by
  change (s.timelines.map (Timeline.written t))[lane.val] = _
  rw [Vector.getElem_map]
  rfl

namespace Recording

variable {r : Recording} {i : Nat} {s : Slice} {slices : List Slice}

/-- The slices of a recording have no lengths in their notes. -/
theorem HasSlice.unwritten_eq (h : r.HasSlice i s) : s.unwritten = s := by
  have htimelines : s.timelines.map Timeline.unwritten = s.timelines := by
    apply InPlace.timelines_ext
    intro lane
    refine (Slice.get_unwritten s lane).trans (Timeline.mapNotes_eq_self (fun e he n hn => ?_))
    have hnote := get?_struck (h.mem_timeline.mp he).2 n.1
    rw [Table.mem_entries_iff.mp hn] at hnote
    obtain ⟨velocity, _, heq⟩ := Option.map_eq_some_iff.mp hnote.symm
    rw [← heq]
    rfl
  rw [Slice.unwritten, htimelines]

/-- A note of a slice has no length. -/
theorem HasSlice.unwritten_of_note? (h : r.HasSlice i s) {channel : Channel} {tick pitch : Int}
    {n : Note} (hn : (s.timelines.get channel).note? tick pitch = some n) : n.unwritten = n := by
  have hsame : (s.timelines.get channel).unwritten.note? tick pitch = some n := by
    rw [← Slice.get_unwritten, h.unwritten_eq, hn]
  rw [Timeline.unwritten, Timeline.note?_mapNotes, hn] at hsame
  exact Option.some.inj hsame

/-- None of the slices of a recording has lengths in its notes. -/
theorem HasSlices.map_unwritten (h : r.HasSlices slices) : slices.map Slice.unwritten = slices := by
  have hall : slices.map Slice.unwritten = slices.map id := by
    refine List.map_congr_left (fun s hs => ?_)
    obtain ⟨_, _, hslice⟩ := h.exists_place hs
    exact hslice.unwritten_eq
  exact hall.trans (List.map_id _)

end Recording

/-! ### Chords and their notes -/

/-- How writing fills in the notes at the ticks of a chord, from one timeline to another. -/
structure Chord.Fills (t : LengthTables) (before after : Timeline) (ticks : List Int) (c : Chord) :
    Prop where
  /-- The chord begins at the first of the ticks. -/
  onset : ticks.head? = some c.tick
  /-- The first strike of a pitch is printed as a tone of the chord, and is left with its length. -/
  printed : ∀ tick ∈ ticks, ∀ pitch note, before.note? tick pitch = some note →
    before.First ticks tick pitch → ∃ tone ∈ c.tones, tone.pitch = pitch ∧
      tone.velocity = note.velocity ∧ tone.held = note.offTick - c.tick ∧
      tone.written = t.write c.tick c.next note ∧
      after.note? tick pitch = some { note with written := some tone.written }
  /-- A later strike of a pitch is left without a length. -/
  folded : ∀ tick ∈ ticks, ∀ pitch note, before.note? tick pitch = some note →
    ¬ before.First ticks tick pitch → after.note? tick pitch = some note.unwritten
  /-- Each tone of the chord is the first strike of its pitch, and no pitch has two of them. -/
  struck : (c.tones.map Score.Tone.pitch).Nodup ∧ ∀ tone ∈ c.tones, ∃ tick ∈ ticks,
    (before.note? tick tone.pitch).isSome ∧ before.First ticks tick tone.pitch
  /-- A length ties note lengths, and their ticks last from the onset to the end of the tone. -/
  lengths : ∀ tone ∈ c.tones, ∃ summands : List (Int × String),
    (∀ e ∈ summands, e ∈ t.notes.entries) ∧
    tone.written.text = "~".intercalate (summands.map Prod.snd) ∧
    LengthTable.ticks summands = tone.written.endTick - c.tick ∧
    0 < tone.written.endTick - c.tick

/-- Every length ties note lengths, whose ticks last from the onset to its end. -/
theorem LengthTables.Proper.exists_summands {t : LengthTables} (h : t.Proper) (tick : Int)
    (next : Option Int) (n : Note) : ∃ summands : List (Int × String),
      (∀ e ∈ summands, e ∈ t.notes.entries) ∧
      (t.write tick next n).text = "~".intercalate (summands.map Prod.snd) ∧
      LengthTable.ticks summands = (t.write tick next n).endTick - tick ∧
      0 < (t.write tick next n).endTick - tick := by
  obtain ⟨_, _, hlasts⟩ := h.write_spec tick next n
  let summands := t.noteSummands (t.fit (n.offTick - tick) (next.map (fun n => n - tick))).length
  have hend : (t.write tick next n).endTick = tick + LengthTable.ticks summands := rfl
  exact ⟨summands, fun e he => mem_of_mem_noteSummands he, rfl, by omega, by omega⟩

/-- Writing a slice fills in the notes of the chords of its runs. -/
theorem Recording.HasSlice.fills {p : Plan} {i : Nat} {s : Slice}
    (hslice : p.recording.HasSlice i s) (ht : p.tables.Proper) {channel : Channel}
    {run : List Int × Chord} (hrun : run ∈ s.runs p channel) :
    run.2.Fills p.tables (s.timelines.get channel)
      ((s.timelines.get channel).written p.tables) run.1 := by
  obtain ⟨g, hg, rfl⟩ := List.mem_map.mp hrun
  obtain ⟨hg, _⟩ := List.mem_filter.mp hg
  have hsorted := hslice.timeline_pairwise channel
  set timeline := s.timelines.get channel
  set next := Group.nextOnset? (s.groups p channel) g.tick
  have htones : (g.chord p s channel (s.groups p channel)).tones =
      g.placed.entries.map (InPlace.placedTone p g.tick next) := InPlace.tones_eq p next g
  have hafter {tick : Int} (htick : tick ∈ g.events.ticks) (pitch : Int) :=
    Timeline.note?_written p.tables hsorted hg htick pitch
  constructor
  case onset => rfl
  case printed =>
    intro tick htick pitch note hnote hfirst
    have hplaced := (Group.mem_placed hsorted hg).mpr ⟨htick, hnote, hfirst⟩
    have hplace : (pitch, tick) ∈ g.places := List.mem_map.mpr ⟨_, hplaced, rfl⟩
    refine ⟨InPlace.placedTone p g.tick next (pitch, tick, note),
      htones ▸ List.mem_map_of_mem hplaced, rfl, rfl, rfl, rfl, ?_⟩
    rw [hafter htick, hnote, Option.map_some, if_pos hplace]
    rfl
  case folded =>
    intro tick htick pitch note hnote hfirst
    have hplace : (pitch, tick) ∉ g.places := by
      intro hmem
      obtain ⟨⟨_, _, n⟩, hplaced, heq⟩ := List.mem_map.mp hmem
      cases heq
      exact hfirst ((Group.mem_placed hsorted hg).mp hplaced).2.2
    rw [hafter htick, hnote, Option.map_some, if_neg hplace, hslice.unwritten_of_note? hnote]
  case struck =>
    rw [htones, List.map_map]
    refine ⟨g.placed.keys_pairwise.imp Int.ne_of_lt, fun tone htone => ?_⟩
    obtain ⟨⟨pitch, tick, note⟩, hplaced, rfl⟩ := List.mem_map.mp htone
    obtain ⟨htick, hnote, hfirst⟩ := (Group.mem_placed hsorted hg).mp hplaced
    exact ⟨tick, htick, Option.isSome_iff_exists.mpr ⟨note, hnote⟩, hfirst⟩
  case lengths =>
    intro tone htone
    rw [htones] at htone
    obtain ⟨e, _, rfl⟩ := List.mem_map.mp htone
    exact ht.exists_summands g.tick next e.2.2

namespace Recording

/-- A reader that agrees with the score of the slices of a recording hears on every channel the
chords of their runs. -/
theorem HasSlices.heard_runs {p : Plan} {slices : List Slice}
    (h : p.recording.HasSlices slices) (hp : p.Proper) {s : Score} {R : Reading}
    (hscore : p.score slices = .ok s) (hagrees : Agrees p.tables s R) (channel : Channel) :
    (R.heard.filter (fun h => h.part.channel = channel)).map Heard.sounds =
      (slices.flatMap (fun s => s.runs p channel)).map (fun run => run.2.sounds p.tables) := by
  obtain ⟨s', R', hwrite, hagrees', hhears⟩ := Agrees.slices hp h
  obtain ⟨_, rfl⟩ := hwrite.unique (Plan.score_eq_ok.mp hscore)
  cases hagrees.reads.symm.trans hagrees'.reads
  rw [hhears.heard_eq channel, p.chords_eq, List.map_map]
  rfl

/-- **Writing fills in what is printed, and nothing else.** A recording that is read from a document
is transcribed in place under any settings. Its slices have no lengths at first, and afterwards they
are the same but for lengths. A reader of the text hears on every channel the chords of the runs of
the slices, in order. In each slice the runs of a channel hold all ticks with notes, and the notes
at the ticks of a run are filled in as its chord is printed. -/
theorem filled_as_printed {document : Json} {r : Recording}
    (hdocument : ofDocument document = .ok r) (settings : Settings) :
    let p := Plan.of r settings
    ∃ slices t R, r.slices = .ok slices ∧ InPlace.transcribe r settings = .ok t ∧
      r.transcribe settings = .ok t ∧ slices.map Slice.unwritten = slices ∧
      t.slices.map Slice.unwritten = slices ∧ Reading.ofText? p.tables t.text = some R ∧
      (∀ channel : Channel,
        (R.heard.filter (fun h => h.part.channel = channel)).map Heard.sounds =
          (slices.flatMap (fun s => s.runs p channel)).map (fun run => run.2.sounds p.tables)) ∧
      ∀ (i : Nat) (s s' : Slice), slices[i]? = some s → t.slices[i]? = some s' →
        ∀ channel : Channel,
        (s.runs p channel).flatMap Prod.fst =
          ((s.timelines.get channel).filter (fun e => e.2.struck.entries ≠ [])).map Prod.fst ∧
        ∀ run ∈ s.runs p channel, run.2.channel = channel ∧
          run.2.Fills p.tables (s.timelines.get channel) (s'.timelines.get channel) run.1 := by
  intro p
  have hbuilt := ofDocument_built hdocument
  have hp : p.Proper := Plan.proper_of hbuilt.wellFormed settings
  obtain ⟨slices, s, R, hslices, hhas, hscore, hagrees, hpaged⟩ := exists_paged hbuilt settings
  have htranscribe : r.transcribe settings = _ :=
    bind_eq_ok.mpr ⟨slices, hslices, bind_eq_ok.mpr ⟨s, hscore, rfl⟩⟩
  refine ⟨slices, _, R, hslices,
    (InPlace.transcribe_eq hslices hhas.distinct settings).trans htranscribe, htranscribe,
    hhas.map_unwritten, ?_, hagrees.ofText? hpaged p, hhas.heard_runs hp hscore hagrees, ?_⟩
  · rw [List.map_map]
    exact (List.map_congr_left (fun s _ => Slice.unwritten_written p.tables s)).trans
      hhas.map_unwritten
  · intro i s s' hs hs' channel
    have hslice : r.HasSlice i s := hhas.hasSlice (s, i) (List.mk_mem_zipIdx_iff_getElem?.mpr hs)
    rw [List.getElem?_map, hs, Option.map_some, Option.some_inj] at hs'
    refine ⟨s.flatMap_runs p channel, fun run hrun => ⟨(hslice.holds hs hrun).1, ?_⟩⟩
    rw [← hs', Slice.get_written]
    exact hslice.fills hp.tables hrun

/-- A strum in which a pitch is struck again, and a tied note in another slice: all notes but the
second strike of the pitch are filled in. -/
theorem filled_as_printed_strum :
    ∃ r slices t R, ofDocument (.ofSequence
        [("0", [(0, 60, 480), (3, 60, 240), (3, 64, 240), (480, 67, 600)])] [(480, 90)]) = .ok r ∧
      r.slices = .ok slices ∧ InPlace.transcribe r {} = .ok t ∧
      t.slices.map Slice.unwritten = slices ∧
      Reading.ofText? (Plan.of r {}).tables t.text = some R ∧
      (R.heard.filter (fun h => h.part.channel = 0)).map Heard.sounds =
        (slices.flatMap (fun s => s.runs (Plan.of r {}) 0)).map
          (fun run => run.2.sounds (Plan.of r {}).tables) ∧
      t.slices.flatMap (fun s => (s.timelines.get 0).flatMap (fun e =>
        e.2.struck.entries.map (fun n => (e.1, n.1, n.2.written.map WrittenLength.text)))) =
          [(0, 60, some "48"), (3, 60, none), (3, 64, some "8"), (480, 67, some "4~16")] := by
  obtain ⟨r, hdocument, hfilled⟩ := exists_eq_ok (show (ofDocument (.ofSequence
    [("0", [(0, 60, 480), (3, 60, 240), (3, 64, 240), (480, 67, 600)])] [(480, 90)])).toOption.any
      (fun r => (r.transcribe {}).toOption.any (fun t =>
        t.slices.flatMap (fun s => (s.timelines.get 0).flatMap (fun e =>
          e.2.struck.entries.map (fun n => (e.1, n.1, n.2.written.map WrittenLength.text)))) =
            [(0, 60, some "48"), (3, 60, none), (3, 64, some "8"), (480, 67, some "4~16")])) =
      true by decide +kernel)
  obtain ⟨slices, t, R, hslices, hinPlace, htranscribe, _, hframe, hread, hheard, _⟩ :=
    filled_as_printed hdocument {}
  refine ⟨r, slices, t, R, hdocument, hslices, hinPlace, hframe, hread, hheard 0, ?_⟩
  rw [htranscribe] at hfilled
  exact of_decide_eq_true hfilled

end Recording

end Transcription
