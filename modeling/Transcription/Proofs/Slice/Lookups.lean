import Mathlib.Data.List.Perm.Basic
import Transcription.Proofs.Recording.Entries
import Transcription.Proofs.Recording.Tracks
import Transcription.Proofs.Slice.Changes

/-!
# Warnings of look-ups

A slice is looked up once for each tick of a channel at which notes are struck, and once for each
choice of program that is played. A look-up warns if it is past the end of the last slice, and never
else. So there are warnings only if an end is declared that lies before what is recorded: a sequence
without a declared end, and one that is recorded from tracks, ends after all of it.
-/

namespace Transcription

namespace Recording

variable {r : Recording}

/-! ### Look-ups that miss -/

/-- A tick lies in some slice exactly if it is before the end of the last one. -/
theorem anyContains_iff {tick : Int} (hstart : 0 ≤ tick) :
    Slice.anyContains r.emptySlices tick = true ↔ tick < r.sliceEnd := by
  rw [Slice.anyContains, List.any_eq_true]
  constructor
  · rintro ⟨s, hs, hin⟩
    have hbounds : s.bounds ∈ r.bounds := r.map_bounds_emptySlices ▸ List.mem_map_of_mem hs
    have hle : s.endTick ≤ r.sliceEnd := snd_le_sliceEnd hbounds
    have hlt := (of_decide_eq_true hin).2
    omega
  · intro hend
    obtain ⟨hplace, hin⟩ := mem_owner_of_lt_sliceEnd hstart hend
    have hmem : r.bounds[r.owner tick] ∈ r.emptySlices.map Slice.bounds := by
      rw [map_bounds_emptySlices]
      exact List.getElem_mem hplace
    obtain ⟨s, hs, heq⟩ := List.mem_map.mp hmem
    rw [← heq] at hin
    exact ⟨s, hs, decide_eq_true hin⟩

/-- What is looked up on a channel is recorded. -/
theorem mem_ticks_of_lookup {channel tick : Int} (h : tick ∈ r.lookupTicks channel) :
    tick ∈ r.ticks := by
  rcases List.mem_append.mp h with hstruck | hplayed
  · exact mem_ticks_of_strikesOn hstruck
  · exact mem_ticks_of_programsOn (mem_playedChanges.mp hplayed).1

/-- A channel on which something is looked up is one of the channels. -/
theorem mem_channels_of_lookup {channel tick : Int} (h : tick ∈ r.lookupTicks channel) :
    channel ∈ r.channels := by
  rw [mem_channels, Table.mem_keys_iff, Table.mem_keys_iff]
  rcases List.mem_append.mp h with hstruck | hplayed
  · exact Or.inl ⟨_, Table.get?_of_mem_keys hstruck⟩
  · exact Or.inr ⟨_, Table.get?_of_mem_keys (mem_playedChanges.mp hplayed).1⟩

/-- In a well-formed recording nothing is looked up before the start. -/
theorem lookup_nonneg (hrep : r.WellFormed) {channel tick : Int}
    (h : tick ∈ r.lookupTicks channel) : 0 ≤ tick := by
  rcases List.mem_append.mp h with hstruck | hplayed
  · obtain ⟨n, hn, -, rfl⟩ := (mem_strikesOn_iff hrep).mp hstruck
    exact tick_nonneg hrep hn
  · exact playedChanges_nonneg hrep hplayed

/-- There are no warnings if everything that is looked up is before the end of the sequence. -/
theorem cutWarnings_eq_nil
    (h : ∀ channel, ∀ tick ∈ r.lookupTicks channel, 0 ≤ tick ∧ tick < r.lastTick) :
    r.cutWarnings = [] := by
  rw [cutWarnings, List.map_eq_nil_iff, List.filter_eq_nil_iff]
  intro tick htick
  obtain ⟨channel, _, hlookup⟩ := List.mem_flatMap.mp htick
  obtain ⟨hstart, hend⟩ := h channel tick hlookup
  have hlt : tick < r.sliceEnd := by
    unfold sliceEnd
    omega
  simp [(anyContains_iff hstart).mpr hlt]

/-- What is looked up past the end of the last slice is warned of. -/
theorem missWarning_mem_cutWarnings (hrep : r.WellFormed) {channel tick : Int}
    (hlookup : tick ∈ r.lookupTicks channel) (hpast : r.sliceEnd ≤ tick) :
    Slice.missWarning tick ∈ r.cutWarnings := by
  have hmissed : Slice.anyContains r.emptySlices tick = false := by
    rw [← Bool.not_eq_true, anyContains_iff (lookup_nonneg hrep hlookup), Int.not_lt]
    exact hpast
  refine List.mem_map_of_mem (List.mem_filter.mpr ⟨?_, by rw [hmissed, Bool.not_false]⟩)
  exact List.mem_flatMap.mpr ⟨channel, mem_channels_of_lookup hlookup, hlookup⟩

/-! ### Warnings by channel and tick -/

/-- The ticks of all channels in no slice, each with its channel. -/
def missedPlaces (r : Recording) (ticks : Int → List Int) : List (Int × Int) :=
  (r.channels.flatMap (fun channel => (ticks channel).map (fun tick => (channel, tick)))).filter
    (fun place => !Slice.anyContains r.emptySlices place.2)

section Places

variable {ticks : Int → List Int}

/-- Of what is looked up in a well-formed recording the places past the end are missed. -/
theorem mem_missedPlaces (hrep : r.WellFormed)
    (hlookup : ∀ channel, ticks channel ⊆ r.lookupTicks channel) {channel tick : Int} :
    (channel, tick) ∈ r.missedPlaces ticks ↔ r.sliceEnd ≤ tick ∧ tick ∈ ticks channel := by
  simp only [missedPlaces, List.mem_filter, List.mem_flatMap, List.mem_map, Prod.mk.injEq,
    Bool.not_eq_true']
  have hpast (h : tick ∈ ticks channel) :
      Slice.anyContains r.emptySlices tick = false ↔ r.sliceEnd ≤ tick := by
    rw [← Bool.not_eq_true, anyContains_iff (lookup_nonneg hrep (hlookup channel h)), Int.not_lt]
  constructor
  · rintro ⟨⟨_, _, _, hmem, rfl, rfl⟩, hmissed⟩
    exact ⟨(hpast hmem).mp hmissed, hmem⟩
  · rintro ⟨hend, hmem⟩
    exact ⟨⟨channel, mem_channels_of_lookup (hlookup channel hmem), tick, hmem, rfl, rfl⟩,
      (hpast hmem).mpr hend⟩

/-- The missed places are distinct if the ticks of each channel are. -/
theorem nodup_missedPlaces (h : ∀ channel, (ticks channel).Nodup) :
    (r.missedPlaces ticks).Nodup := by
  refine (nodup_flatMap_of_key (k := id) Prod.fst ?_ (fun channel _ => ?_) ?_).filter _
  · rw [List.map_id]
    exact (Table.keys_pairwise _).imp Std.ne_of_lt
  · exact (h channel).map (fun _ _ heq => (Prod.mk.inj heq).2)
  · rintro channel _ place hplace
    obtain ⟨tick, _, rfl⟩ := List.mem_map.mp hplace
    rfl

/-- The ticks of missed places are those of all channels in no slice. -/
theorem map_snd_missedPlaces : (r.missedPlaces ticks).map Prod.snd =
    (r.channels.flatMap ticks).filter (fun tick => !Slice.anyContains r.emptySlices tick) := by
  have hall : (r.channels.flatMap (fun channel => (ticks channel).map
      (fun tick => (channel, tick)))).map Prod.snd = r.channels.flatMap ticks := by
    rw [List.map_flatMap]
    refine List.flatMap_congr (fun channel _ => ?_)
    rw [List.map_map]
    exact List.map_id _
  rw [← hall, List.filter_map]
  rfl

end Places

/-- Warnings that say exactly what lies past an end: one for each channel and tick from there on at
which a note is struck, and one for each at which a program is chosen in whose span a note is
struck. -/
def WarnsPast (r : Recording) (endTick : Int) (warnings : List Warning) : Prop :=
  ∃ struck chosen : List (Int × Int), struck.Nodup ∧ chosen.Nodup ∧
    (∀ channel tick, (channel, tick) ∈ struck ↔ endTick ≤ tick ∧
      ∃ n ∈ r.allStrikes, n.channel = channel ∧ n.tick = tick) ∧
    (∀ channel tick, (channel, tick) ∈ chosen ↔ endTick ≤ tick ∧
      ∃ span ∈ r.programSpans channel, span.1 = tick ∧ r.struckIn channel span = true) ∧
    warnings.Perm ((struck ++ chosen).map (fun place => Slice.missWarning place.2))

/-- The warnings of cutting a well-formed recording are those of what lies past the end of its last
slice. -/
theorem warnsPast (hrep : r.WellFormed) : r.WarnsPast r.sliceEnd r.cutWarnings := by
  refine ⟨r.missedPlaces (fun channel => (r.strikesOn channel).keys),
    r.missedPlaces r.playedChanges, nodup_missedPlaces (fun _ => ?_),
    nodup_missedPlaces r.nodup_playedChanges, fun channel tick => ?_, fun channel tick => ?_, ?_⟩
  · exact (Table.keys_pairwise _).imp Std.ne_of_lt
  · rw [mem_missedPlaces hrep (fun _ => List.subset_append_left _ _), mem_strikesOn_iff hrep]
  · rw [mem_missedPlaces hrep (fun _ => List.subset_append_right _ _), mem_playedChanges_iff hrep]
  · -- look-ups alternate between strikes and changes by channel, the places have all strikes first
    have hticks : ((r.channels.flatMap r.lookupTicks).filter
        (fun tick => !Slice.anyContains r.emptySlices tick)).Perm
        ((r.missedPlaces (fun channel => (r.strikesOn channel).keys) ++
          r.missedPlaces r.playedChanges).map Prod.snd) := by
      rw [List.map_append, map_snd_missedPlaces, map_snd_missedPlaces, ← List.filter_append]
      exact (List.flatMap_append_perm _ _ _).symm.filter _
    have hwarnings := hticks.map Slice.missWarning
    rw [List.map_map] at hwarnings
    exact hwarnings

/-- **Warnings say what lies past the end.** When a recording that is read from a document is cut,
there is one warning for each channel and tick past the end of the last slice at which a note is
struck, one for each at which a program is chosen that is played, and no other one; so there is none
if the document declares no end. There is none either if the recording is one of tracks whose deltas
are not negative, and such a recording is cut if its messages are in their ranges. -/
theorem warnings_past_end :
    (∀ document r, ofDocument document = .ok r →
      ∃ slices last, r.cut = .ok { slices, warnings := r.cutWarnings } ∧
        slices.getLast? = some last ∧ r.WarnsPast last.endTick r.cutWarnings) ∧
      (∀ members r, ofDocument (.obj members) = .ok r → Json.given? members "end_tick" = none →
        r.cutWarnings = []) ∧
      ∀ f r, (∀ track ∈ f.tracks, ∀ e ∈ track, 0 ≤ e.delta) → Midi.File.record f = .ok r →
        (∀ c, r.cut = .ok c → c.warnings = []) ∧
          (f.InRange → ∃ slices, r.cut = .ok { slices, warnings := [] }) := by
  refine ⟨fun document r hdocument => ?_, fun members r hdocument hend => ?_,
    fun f r hdeltas hrecord => ?_⟩
  · have hrep := ofDocument_wellFormed hdocument
    obtain ⟨slices, hslices, hhas⟩ := exists_slices hrep
    obtain ⟨s, hs, hend, -⟩ := hhas.exists_last
    exact ⟨slices, s, cut_eq hslices, hs, hend ▸ warnsPast hrep⟩
  · have hrep := ofDocument_wellFormed hdocument
    have hopen : r.endTick = none := by
      obtain ⟨members', added, resolution, endTick, heq, -, -, hgiven, rfl⟩ :=
        exists_gives_of_ofDocument hdocument
      cases heq
      rw [addAll_eq_markAll, markAll_eq]
      cases endTick with
      | none => rfl
      | some n => exact absurd (hend.symm.trans hgiven.1) (by simp)
    exact cutWarnings_eq_nil (fun channel tick hlookup =>
      ⟨lookup_nonneg hrep hlookup, lt_lastTick hopen (mem_ticks_of_lookup hlookup)⟩)
  · have hnone : r.cutWarnings = [] := cutWarnings_eq_nil (fun channel tick hlookup =>
      Midi.File.record_within hdeltas hrecord tick (mem_ticks_of_lookup hlookup))
    refine ⟨fun c hcut => (warnings_of_cut hcut).trans hnone, fun hrange => ?_⟩
    obtain ⟨slices, hslices, -⟩ := exists_slices (Midi.File.record_built hrange hrecord).wellFormed
    exact ⟨slices, hnone ▸ cut_eq hslices⟩

/-- A document that declares its end before most of what it records. -/
def endingTooEarly : Json :=
  .obj
    [("resolution", .int 480), ("end_tick", .int 100),
      ("channels", .obj
        [("0", .obj [("notes", .arr
            [.obj [("tick", .int 0), ("note", .int 60), ("length", .int 480)],
              .obj [("tick", .int 960), ("note", .int 60), ("length", .int 480)],
              .obj [("tick", .int 960), ("note", .int 64), ("length", .int 480)]])]),
          ("1", .obj
            [("notes", .arr [.obj [("tick", .int 960), ("note", .int 48), ("length", .int 60)]]),
              ("programs", .arr
                [.obj [("tick", .int 50), ("program", .int 5)],
                  .obj [("tick", .int 900), ("program", .int 6)],
                  .obj [("tick", .int 2000), ("program", .int 7)]])])])]

/-- A file of two tracks, of which the second one begins after the end of the first one. -/
def twoTracks : Midi.File where
  type := 1
  resolution := 480
  tracks :=
    [[⟨0, .noteOn 0 60 100⟩, ⟨480, .noteOff 0 60⟩], [⟨960, .program 1 5⟩, ⟨0, .noteOn 1 48 90⟩]]

/-- The document has one warning for the two notes that are struck together past its end, one for
the note of the other channel, and one for the program that this note plays. The tracks have none.
-/
theorem warnings_past_end_endingTooEarly :
    (∃ r slices last, ofDocument endingTooEarly = .ok r ∧
      r.cut = .ok { slices, warnings := [960, 960, 900].map Slice.missWarning } ∧
      slices.getLast? = some last ∧
      r.WarnsPast last.endTick ([960, 960, 900].map Slice.missWarning)) ∧
      ∃ r slices, twoTracks.record = .ok r ∧ r.cut = .ok { slices, warnings := [] } := by
  obtain ⟨hread, -, htracks⟩ := warnings_past_end
  obtain ⟨r, hdocument, hr⟩ := exists_eq_ok (show (ofDocument endingTooEarly).toOption.any
    (fun r => r.cutWarnings = [960, 960, 900].map Slice.missWarning) = true by decide +kernel)
  obtain ⟨r', hrecord, -⟩ := exists_eq_ok (show twoTracks.record.toOption.any (fun _ => true) = true
    by decide +kernel)
  obtain ⟨slices, last, hcut, hlast, hwarns⟩ := hread _ _ hdocument
  have hdeltas : ∀ track ∈ twoTracks.tracks, ∀ e ∈ track, 0 ≤ e.delta := by decide +kernel
  have hmessages : ∀ track ∈ twoTracks.tracks, ∀ e ∈ track, e.message.InRange := by
    simp [twoTracks, Midi.Message.InRange]
  obtain ⟨slices', hcut'⟩ := (htracks twoTracks r' hdeltas hrecord).2
    (fun track htrack e he => ⟨hdeltas track htrack e he, hmessages track htrack e he⟩)
  rw [of_decide_eq_true hr] at hcut hwarns
  exact ⟨⟨r, slices, last, hdocument, hcut, hlast, hwarns⟩, r', slices', hrecord, hcut'⟩

end Recording

end Transcription
