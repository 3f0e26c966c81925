import Mathlib.Data.List.Sort
import Transcription.Proofs.Slice.Exact
import Transcription.Proofs.Slice.Played

/-!
# Changes of instrument

A change of instrument is marked where a program is chosen that is played, and nowhere else. Each
mark is in the slice that contains its tick, past the end in the last one, also if the notes that
play the program are in other slices.
-/

namespace Transcription

/-- The ticks of a timeline at which a change is marked. -/
def Timeline.changes (t : Timeline) : List Int := (t.filter (fun e => e.2.change)).map Prod.fst

namespace Recording

variable {r : Recording}

/-- Whether a note of a channel is struck in a span. -/
def struckIn (r : Recording) (channel : Int) (span : Int × Option Int) : Bool :=
  r.allStrikes.any (fun n => n.channel = channel ∧ inSpan span n.tick)

/-- A note is struck in a span if there is a strike of the channel whose tick lies in it. -/
theorem struckIn_iff {channel : Int} {span : Int × Option Int} :
    r.struckIn channel span = true ↔
      ∃ n ∈ r.allStrikes, n.channel = channel ∧ inSpan span n.tick = true := by
  simp only [struckIn, List.any_eq_true, decide_eq_true_eq]

/-- Slices that mark exactly the programs of a channel that are played. -/
structure MarksPlayed (r : Recording) (slices : List Slice) (channel : Channel) : Prop where
  /-- An event is marked exactly if a program is chosen at its tick in whose span a note is
  struck. -/
  marked : ∀ s ∈ slices, ∀ e ∈ s.timelines.get channel, e.2.change = true ↔
    ∃ span ∈ r.programSpans channel.val, span.1 = e.1 ∧ r.struckIn channel.val span = true
  /-- Together the slices have one mark for each span in which a note is struck, in the order of the
  spans. -/
  all : slices.flatMap (fun s => (s.timelines.get channel).changes) =
    ((r.programSpans channel.val).filter (r.struckIn channel.val)).map Prod.fst
  /-- A mark is in the slice that contains its tick, past the end in the last one. -/
  placed : ∀ s ∈ slices, ∀ tick ∈ (s.timelines.get channel).changes,
    s.contains tick = true ∨ slices.getLast? = some s ∧ s.endTick ≤ tick

/-- In a well-formed recording the programs that are played are those in whose span a note is
struck. -/
theorem playedChanges_eq (hrep : r.WellFormed) (channel : Int) : r.playedChanges channel =
    ((r.programSpans channel).filter (r.struckIn channel)).map Prod.fst := by
  have hstruck (span : Int × Option Int) : r.isPlayed channel span = r.struckIn channel span := by
    rw [Bool.eq_iff_iff, isPlayed, struckIn_iff, List.any_eq_true]
    constructor
    · rintro ⟨strike, hstrike, hin⟩
      obtain ⟨n, hn, hchannel, rfl⟩ := (mem_strikesOn_iff hrep).mp hstrike
      exact ⟨n, hn, hchannel, hin⟩
    · rintro ⟨n, hn, rfl, hin⟩
      exact ⟨n.tick, (mem_strikesOn_iff hrep).mpr ⟨n, hn, rfl, rfl⟩, hin⟩
  rw [playedChanges, funext hstruck]

/-- In a well-formed recording a program is played if a note is struck in its span. -/
theorem mem_playedChanges_iff (hrep : r.WellFormed) {channel tick : Int} :
    tick ∈ r.playedChanges channel ↔
      ∃ span ∈ r.programSpans channel, span.1 = tick ∧ r.struckIn channel span = true := by
  rw [playedChanges_eq hrep]
  simp only [List.mem_map, List.mem_filter]
  exact ⟨fun ⟨span, ⟨hspan, hstruck⟩, heq⟩ => ⟨span, hspan, heq, hstruck⟩,
    fun ⟨span, hspan, heq, hstruck⟩ => ⟨span, ⟨hspan, hstruck⟩, heq⟩⟩

/-- No program of a well-formed recording is chosen before the start. -/
theorem playedChanges_nonneg (hrep : r.WellFormed) {channel tick : Int}
    (h : tick ∈ r.playedChanges channel) : 0 ≤ tick := by
  obtain ⟨e, he, rfl⟩ := List.mem_map.mp (mem_playedChanges.mp h).1
  exact (hrep.chosen channel e he).1

/-- Something happens where a program that is played is chosen. -/
theorem exists_eventAt_of_played {channel tick : Int} (h : tick ∈ r.playedChanges channel)
    (s : Slice) : ∃ e, r.eventAt s channel tick = some e := by
  rw [eventAt]
  split
  · exact ⟨_, rfl⟩
  · exact ⟨_, if_pos h⟩

/-- The marks of a slice are those of the programs that are played and belong to it. -/
theorem HasSlice.mem_changes (hrep : r.WellFormed) {i : Nat} {s : Slice} (h : r.HasSlice i s)
    {channel : Channel} {tick : Int} : tick ∈ (s.timelines.get channel).changes ↔
      r.owner tick = i ∧ tick ∈ r.playedChanges channel.val := by
  rw [Timeline.changes, List.mem_map]
  constructor
  · rintro ⟨⟨tick, e⟩, he, rfl⟩
    obtain ⟨hmem, hchange⟩ := List.mem_filter.mp he
    obtain ⟨howner, hevent⟩ := h.mem_timeline.mp hmem
    exact ⟨howner, (change_or_struck hrep hevent).1.mp hchange⟩
  · rintro ⟨howner, hplayed⟩
    obtain ⟨e, hevent⟩ := exists_eventAt_of_played hplayed s
    have hchange := (change_or_struck hrep hevent).1.mpr hplayed
    exact ⟨(tick, e), List.mem_filter.mpr ⟨h.mem_timeline.mpr ⟨howner, hevent⟩, hchange⟩, rfl⟩

namespace HasSlices

variable {slices : List Slice}

/-- Together the slices have the marks of all programs that are played, in their order. -/
theorem flatMap_changes (hrep : r.WellFormed) (h : r.HasSlices slices) (channel : Channel) :
    slices.flatMap (fun s => (s.timelines.get channel).changes) =
      r.playedChanges channel.val := by
  have hslice (i : Nat) (hi : i < slices.length) : r.HasSlice i slices[i] :=
    h.hasSlice (slices[i], i) (List.mk_mem_zipIdx_iff_getElem?.mpr (List.getElem?_eq_getElem hi))
  refine List.Pairwise.eq_of_mem_iff (r := (· < ·)) ?_ ?_ (fun tick => ?_)
  · refine List.pairwise_flatMap.mpr ⟨fun s hs => ?_, ?_⟩
    · obtain ⟨i, _, hplace⟩ := h.exists_place hs
      exact List.pairwise_map.mpr ((hplace.timeline_pairwise channel).filter _)
    · -- a mark of a later slice belongs to this one, so it is not before those of the earlier one
      refine List.pairwise_iff_getElem.mpr (fun i j hi hj hlt tick htick tick' htick' => ?_)
      obtain ⟨rfl, _⟩ := ((hslice i hi).mem_changes hrep).mp htick
      obtain ⟨rfl, hplayed⟩ := ((hslice j hj).mem_changes hrep).mp htick'
      by_contra hle
      have := r.owner_mono (playedChanges_nonneg hrep hplayed) (Int.not_lt.mp hle)
      omega
  · exact (r.programsOn channel.val).keys_pairwise.sublist (r.playedChanges_sublist channel.val)
  · rw [List.mem_flatMap]
    constructor
    · rintro ⟨s, hs, htick⟩
      obtain ⟨i, _, hplace⟩ := h.exists_place hs
      exact ((hplace.mem_changes hrep).mp htick).2
    · intro hplayed
      have howner : r.owner tick < slices.length := by
        rw [← List.length_map Slice.bounds, h.bounds]
        exact r.owner_lt tick
      exact ⟨_, List.getElem_mem howner,
        ((hslice _ howner).mem_changes hrep).mpr ⟨rfl, hplayed⟩⟩

/-- The slices of a well-formed recording mark exactly the programs that are played. -/
theorem marksPlayed (hrep : r.WellFormed) (h : r.HasSlices slices) (channel : Channel) :
    r.MarksPlayed slices channel := by
  constructor
  case marked =>
    rintro s hs ⟨tick, e⟩ he
    obtain ⟨i, _, hslice⟩ := h.exists_place hs
    exact (change_or_struck hrep (hslice.mem_timeline.mp he).2).1.trans (mem_playedChanges_iff hrep)
  case all => exact (h.flatMap_changes hrep channel).trans (playedChanges_eq hrep channel.val)
  case placed =>
    intro s hs tick htick
    obtain ⟨i, hget, hslice⟩ := h.exists_place hs
    obtain ⟨rfl, hchange⟩ := (hslice.mem_changes hrep).mp htick
    exact h.contains_or_last (playedChanges_nonneg hrep hchange) hget hslice

end HasSlices

/-- **Marks are those of the programs that are played.** On every channel the spans of programs
divide the ticks from the first choice on, each with the program that is active in it; and the
slices of a recording that is read from a document mark the begins of those spans in which a note is
struck. -/
theorem changes_exact {document : Json} (hdocument : ofDocument document = .ok r) :
    (∀ channel, r.Divided channel) ∧
      ∃ slices, r.slices = .ok slices ∧ r.cut = .ok { slices, warnings := r.cutWarnings } ∧
        ∀ channel, r.MarksPlayed slices channel := by
  have hrep := ofDocument_wellFormed hdocument
  obtain ⟨slices, hslices, hhas⟩ := exists_slices hrep
  exact ⟨r.divided, slices, hslices, cut_eq hslices, hhas.marksPlayed hrep⟩

/-- A document with four choices of program on a channel. -/
def fourPrograms : Json :=
  .obj
    [("resolution", .int 480), ("end_tick", .int 1200),
      ("channels", .obj
        [("3", .obj
          [("notes", .arr
            [.obj [("tick", .int 120), ("note", .int 60), ("length", .int 60)],
              .obj [("tick", .int 960), ("note", .int 62), ("length", .int 60)],
              .obj [("tick", .int 2400), ("note", .int 64), ("length", .int 60)]]),
            ("programs", .arr
              [.obj [("tick", .int 0), ("program", .int 5)],
                .obj [("tick", .int 480), ("program", .int 6)],
                .obj [("tick", .int 960), ("program", .int 7)],
                .obj [("tick", .int 2000), ("program", .int 8)]])])]),
      ("globals", .arr [.obj [("tick", .int 100), ("tempo", .int 90)]])]

/-- The second program has no notes before the next one is chosen, and is not marked. The third one
has a note at its own tick, and the last one is past the end; both are marked. -/
theorem changes_exact_fourPrograms :
    ∃ r slices, ofDocument fourPrograms = .ok r ∧
      r.programSpans 3 = [(0, some 480), (480, some 960), (960, some 2000), (2000, none)] ∧
      r.programAt 3 600 = 6 ∧ r.slices = .ok slices ∧
      slices.flatMap (fun s => (s.timelines.get 3).changes) = [0, 960, 2000] := by
  obtain ⟨r, hdocument, hr⟩ := exists_eq_ok (show (ofDocument fourPrograms).toOption.any (fun r =>
    r.programSpans 3 = [(0, some 480), (480, some 960), (960, some 2000), (2000, none)] ∧
      r.programAt 3 600 = 6 ∧
      ((r.programSpans 3).filter (r.struckIn 3)).map Prod.fst = [0, 960, 2000]) = true
    by decide +kernel)
  obtain ⟨hspans, hprogram, hstruck⟩ := of_decide_eq_true hr
  obtain ⟨-, slices, hslices, -, hmarks⟩ := changes_exact hdocument
  exact ⟨r, slices, hdocument, hspans, hprogram, hslices, (hmarks 3).all.trans hstruck⟩

end Recording

end Transcription
