import Transcription.Proofs.Reading.Performance
import Transcription.Proofs.Slice.Bounds

/-!
# The groups of a slice

The groups of a timeline hold its events in their order. In a group with notes every event has
notes, and of several strikes of one pitch the earliest counts; so the chord of a group in a slice
of a well-formed recording can be written.
-/

namespace Transcription

namespace Group

variable {shortest : Int} {g : Group} {timeline : Timeline}

/-- Of several strikes of one pitch in a group the earliest counts. -/
theorem get?_notes (g : Group) (pitch : Int) :
    g.notes.get? pitch = g.events.findSome? (fun e => e.2.struck.get? pitch) := by
  have hfold (folded : Timeline) (held : Table Int Note) :
      (folded.foldl (fun held e => held.orElse e.2.struck) held).get? pitch =
        (held.get? pitch).or (folded.findSome? (fun e => e.2.struck.get? pitch)) := by
    induction folded generalizing held with
    | nil => simp
    | cons e rest ih =>
      rw [List.foldl_cons, ih, Table.get?_orElse, List.findSome?_cons]
      cases held.get? pitch <;> cases e.2.struck.get? pitch <;> rfl
  rw [notes, hfold, events, List.findSome?_cons]
  cases g.first.struck.get? pitch <;> rfl

/-- The notes of a group are among those of its events. -/
theorem exists_struck {e : Int × Note} (h : e ∈ g.notes.entries) :
    ∃ event ∈ g.events, e ∈ event.2.struck.entries := by
  have hget : g.notes.get? e.1 = some e.2 := Table.mem_entries_iff.mp h
  rw [get?_notes] at hget
  obtain ⟨event, hevent, hstruck⟩ := List.exists_of_findSome?_eq_some hget
  exact ⟨event, hevent, Table.mem_entries_iff.mpr hstruck⟩

/-- The events of a group are among those that were divided. -/
theorem events_subset (hg : g ∈ divide shortest timeline) : g.events ⊆ timeline := by
  intro e he
  rw [← flatMap_events_divide shortest timeline]
  exact List.mem_flatMap.mpr ⟨g, hg, he⟩

/-- The events within a group and from group to group come in the order of the timeline. -/
theorem divide_pairwise (shortest : Int) (hsorted : timeline.Pairwise (fun a b => a.1 < b.1)) :
    (∀ g ∈ divide shortest timeline, g.events.Pairwise (fun a b => a.1 < b.1)) ∧
      (divide shortest timeline).Pairwise
        (fun g h => ∀ a ∈ g.events, ∀ b ∈ h.events, a.1 < b.1) := by
  rw [← flatMap_events_divide shortest timeline] at hsorted
  exact List.pairwise_flatMap.mp hsorted

/-- Groups as a division makes them: what was folded into a group had to join it. -/
def Joined (shortest : Int) (g : Group) : Prop := ∀ e ∈ g.folded, joins shortest g e = true

/-- A division folds into groups what joins them only, and begins with the open group. -/
theorem divideAfter_spec (hg : g.Joined shortest) (timeline : Timeline) :
    (∀ g' ∈ divideAfter shortest g timeline, g'.Joined shortest) ∧
      (divideAfter shortest g timeline).IsChain
        (fun g' h => joins shortest g' (h.tick, h.first) = false) ∧
      ∃ folded rest, divideAfter shortest g timeline = { g with folded } :: rest := by
  induction timeline generalizing g with
  | nil =>
    refine ⟨?_, by simp [divideAfter], g.folded, [], rfl⟩
    intro g' hg'
    rw [divideAfter, List.mem_singleton] at hg'
    rw [hg']
    exact hg
  | cons e rest ih =>
    rw [divideAfter]
    by_cases hjoins : joins shortest g e = true
    · rw [if_pos hjoins]
      apply ih
      intro e' he'
      rcases List.mem_append.mp he' with hold | hnew
      · exact hg e' hold
      · rw [List.mem_singleton.mp hnew]
        exact hjoins
    · rw [if_neg hjoins]
      obtain ⟨hjoined, hchain, folded, rest', hhead⟩ :=
        ih (g := ⟨e.1, e.2, []⟩) (fun _ he' => absurd he' List.not_mem_nil)
      refine ⟨?_, ?_, g.folded, _, rfl⟩
      · intro g' hg'
        rcases List.mem_cons.mp hg' with rfl | hg'
        · exact hg
        · exact hjoined g' hg'
      · rw [hhead] at hchain ⊢
        exact List.IsChain.cons_cons (by simpa using hjoins) hchain

/-- In a division every group is joined, and no group begins with an event that joins the group
before. -/
theorem divide_spec (shortest : Int) (timeline : Timeline) :
    (∀ g ∈ divide shortest timeline, g.Joined shortest) ∧
      (divide shortest timeline).IsChain
        (fun g h => joins shortest g (h.tick, h.first) = false) := by
  cases timeline with
  | nil => simp [divide]
  | cons e rest =>
    obtain ⟨hjoined, hchain, _⟩ := @divideAfter_spec shortest ⟨e.1, e.2, []⟩
      (fun _ he' => absurd he' List.not_mem_nil) rest
    exact ⟨hjoined, hchain⟩

/-- A group has notes exactly if its first event does, and then all of its events do. -/
theorem Joined.notes_eq_nil_iff (h : g.Joined shortest) :
    (g.notes.entries = [] ↔ g.first.struck.entries = []) ∧
      (g.first.struck.entries ≠ [] → ∀ e ∈ g.events, e.2.struck.entries ≠ []) ∧
      (g.first.struck.entries = [] → g.events = [(g.tick, g.first)]) := by
  have hfolded (e : Int × Event) (he : e ∈ g.folded) :
      g.first.struck.entries ≠ [] ∧ e.2.struck.entries ≠ [] := by
    have hjoins := h e he
    simp only [joins, Bool.not_eq_true', decide_eq_true_eq] at hjoins
    constructor
    · intro hnil
      rw [Table.isEmpty_iff.mpr hnil] at hjoins
      exact absurd hjoins.1 (by decide)
    · intro hnil
      rw [Table.isEmpty_iff.mpr hnil] at hjoins
      exact absurd hjoins.2.1 (by decide)
  have hnone (hnil : g.first.struck.entries = []) : g.folded = [] := by
    apply List.eq_nil_iff_forall_not_mem.mpr
    intro e he
    exact (hfolded e he).1 hnil
  refine ⟨⟨fun hnil => ?_, fun hnil => ?_⟩, fun hne e he => ?_, fun hnil => ?_⟩
  · apply List.eq_nil_iff_forall_not_mem.mpr
    intro e he
    have hget : g.first.struck.get? e.1 = some e.2 := Table.mem_entries_iff.mp he
    have hnotes : g.notes.get? e.1 = some e.2 := by
      rw [get?_notes, events, List.findSome?_cons, hget]
    rw [← Table.mem_entries_iff, hnil] at hnotes
    exact absurd hnotes List.not_mem_nil
  · rw [notes, hnone hnil]
    exact hnil
  · rcases List.mem_cons.mp he with rfl | he
    · exact hne
    · exact (hfolded e he).2
  · rw [events, hnone hnil]

/-- Two members of a sorted list of groups are in the order of their ticks. -/
theorem rel_of_lt {groups : List Group} {Q : Group → Group → Prop}
    (hsorted : groups.Pairwise (fun g h => g.tick < h.tick)) (hpairwise : groups.Pairwise Q)
    {g h : Group} (hg : g ∈ groups) (hh : h ∈ groups) (hlt : g.tick < h.tick) : Q g h := by
  induction groups with
  | nil => simp at hg
  | cons a groups ih =>
    obtain ⟨hfirst, hrest⟩ := List.pairwise_cons.mp hsorted
    obtain ⟨hfirst', hrest'⟩ := List.pairwise_cons.mp hpairwise
    rcases List.mem_cons.mp hg with rfl | hg'
    · rcases List.mem_cons.mp hh with rfl | hh'
      · omega
      · exact hfirst' h hh'
    · rcases List.mem_cons.mp hh with rfl | hh'
      · have := hfirst g hg'
        omega
      · exact ih hrest hrest' hg' hh'

end Group

/-! ### The groups of a slice -/

section Groups

variable {p : Plan} {i : Nat} {s : Slice} {channel : Channel} {g : Group}

/-- A group begins with an event that belongs to the slice. -/
theorem Recording.HasSlice.mem_groups (hslice : p.recording.HasSlice i s)
    (hg : g ∈ s.groups p channel) :
    p.recording.owner g.tick = i ∧ p.recording.eventAt s channel.val g.tick = some g.first :=
  hslice.mem_timeline.mp (Group.events_subset hg List.mem_cons_self)

/-- A group has notes exactly if there is a strike at its tick. -/
theorem Recording.HasSlice.notes_iff (hslice : p.recording.HasSlice i s)
    (hrep : p.recording.WellFormed) (hg : g ∈ s.groups p channel) :
    g.notes.entries ≠ [] ↔ g.tick ∈ (p.recording.strikesOn channel.val).keys := by
  have hjoined := (Group.divide_spec _ _).1 g hg
  rw [Ne, hjoined.notes_eq_nil_iff.1]
  exact (Recording.change_or_struck hrep (hslice.mem_groups hg).2).2.1

/-- The groups of a slice come in the order of their ticks. -/
theorem Recording.HasSlice.groups_pairwise (hslice : p.recording.HasSlice i s) (channel : Channel) :
    (s.groups p channel).Pairwise (fun g h => g.tick < h.tick) := by
  exact (Group.divide_pairwise _ (hslice.timeline_pairwise channel)).2.imp
    (fun hgh => hgh _ List.mem_cons_self _ List.mem_cons_self)

end Groups

/-! ### Valid chords -/

/-- Every note gets a length that can be written and takes up time. -/
theorem LengthTables.Proper.write_spec {t : LengthTables} (h : t.Proper) (tick : Int)
    (next : Option Int) (n : Note) :
    t.notes.ticks? (t.write tick next n).text = some ((t.write tick next n).endTick - tick) ∧
      LengthTable.IsLength (t.write tick next n).text ∧ tick < (t.write tick next n).endTick := by
  let length := (t.fit (n.offTick - tick) (next.map (fun n => n - tick))).length
  have hne : t.noteSummands length ≠ [] := h.noteSummands_fit_ne_nil _ _
  have hmem : ∀ e ∈ t.noteSummands length, e ∈ t.notes.entries :=
    fun e he => mem_of_mem_noteSummands he
  have hladder := h.notes_ofLadder
  have hend : (t.write tick next n).endTick = tick + LengthTable.ticks (t.noteSummands length) :=
    rfl
  have hpos := LengthTable.ticks_pos hne (fun e he => hladder.pos (hmem e he))
  have hticks : (t.write tick next n).endTick - tick =
      LengthTable.ticks (t.noteSummands length) := by omega
  rw [hticks]
  exact ⟨hladder.ticks?_text hmem hne, hladder.isLength_text hmem hne, by omega⟩

/-- The notes of a group get lengths that can be written. -/
theorem Score.fits_tones {p : Plan} (hp : p.tables.Proper) {g : Group} (next : Option Int)
    (hrange : ∀ n ∈ g.notes.entries,
      (0 ≤ n.1 ∧ n.1 ≤ 127) ∧ 1 ≤ n.2.velocity ∧ n.2.velocity ≤ 127) :
    ∀ tone ∈ Score.tones p next g, tone.Fits p.tables g.tick := by
  intro tone htone
  obtain ⟨n, hn, rfl⟩ := List.mem_map.mp htone
  obtain ⟨hpitch, hvelocity⟩ := hrange n hn
  obtain ⟨hticks, hlength, hlasts⟩ := hp.write_spec g.tick next n.2
  exact ⟨⟨hpitch, hvelocity⟩, hticks, hlength, hlasts⟩

/-- The actions of a call for a slice of a well-formed recording are valid. -/
theorem Call.valid_actions {p : Plan} (hp : p.Proper) {i : Nat} {call : Call}
    (hslice : p.recording.HasSlice i call.slice) :
    ∀ a ∈ call.actions p, a.Valid p.tables := by
  intro a ha
  cases call with
  | beginSlice slice number =>
    rw [List.mem_singleton.mp ha]
    trivial
  | globals slice =>
    rw [List.mem_singleton.mp ha]
    trivial
  | channelBlock slice channel =>
    rcases mem_channelBlock ha with rfl | ⟨g, _, rfl⟩ | ⟨g, hg, hnotes, rfl⟩
    · trivial
    · trivial
    · refine ⟨fun hnil => hnotes ((Writing.tones_eq_nil p _ g).mp hnil), ?_⟩
      refine Score.fits_tones hp.tables _ (fun n hn => ?_)
      obtain ⟨event, hevent, hstruck⟩ := Group.exists_struck hn
      have hmem := Group.events_subset hg hevent
      obtain ⟨_, heventAt⟩ := hslice.mem_timeline.mp hmem
      exact Recording.struck_inRange hp.recording heventAt hstruck

end Transcription
