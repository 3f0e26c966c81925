import Transcription.Proofs.Timing.Run

/-!
# Chords with room to be left

When program changes and global commands keep their distance from the notes before them, there is
room for a rest between the onset of a chord and whatever comes next for its channel. So every chord
is left by then, and an action of a transcription leaves every part in time for all later ones.
-/

namespace Transcription

/-- A recording in which every strike is before the end, and every change of program on a channel
and every later global command come at some distance after the strikes before them. -/
structure Recording.Spaced (r : Recording) (distance : Int) : Prop where
  ended : ∀ e ∈ r.strikes.entries, ∀ tick ∈ e.2.keys, tick < r.lastTick
  programs : ∀ e ∈ r.strikes.entries, ∀ tick ∈ e.2.keys,
    ∀ change ∈ (r.programsOn e.1).keys, tick < change → tick + distance ≤ change
  globals : ∀ e ∈ r.strikes.entries, ∀ tick ∈ e.2.keys,
    ∀ command ∈ r.globalTicks, 0 < command → tick < command → tick + distance ≤ command

namespace Recording

variable {r : Recording} {distance channel tick : Int}

/-- Whether a recording is spaced can be decided, for it has finitely many ticks. -/
instance (r : Recording) (distance : Int) : Decidable (r.Spaced distance) :=
  decidable_of_iff
    ((∀ e ∈ r.strikes.entries, ∀ tick ∈ e.2.keys, tick < r.lastTick) ∧
      (∀ e ∈ r.strikes.entries, ∀ tick ∈ e.2.keys,
        ∀ change ∈ (r.programsOn e.1).keys, tick < change → tick + distance ≤ change) ∧
      ∀ e ∈ r.strikes.entries, ∀ tick ∈ e.2.keys,
        ∀ command ∈ r.globalTicks, 0 < command → tick < command → tick + distance ≤ command)
    ⟨fun h => ⟨h.1, h.2.1, h.2.2⟩, fun h => ⟨h.ended, h.programs, h.globals⟩⟩

/-- The strikes of a channel are listed under it. -/
theorem exists_strikes (h : tick ∈ (r.strikesOn channel).keys) :
    ∃ e ∈ r.strikes.entries, e.1 = channel ∧ tick ∈ e.2.keys :=
  ⟨(channel, r.strikesOn channel), Table.mem_entries_iff.mpr (Table.get?_of_mem_keys h), rfl, h⟩

/-- A strike of a spaced recording lies within the slice to which it belongs. -/
theorem Spaced.mem_owner (h : r.Spaced distance) (hrep : r.WellFormed)
    (htick : tick ∈ (r.strikesOn channel).keys) :
    0 ≤ tick ∧ ∃ hlt : r.owner tick < r.bounds.length,
      r.bounds[r.owner tick].1 ≤ tick ∧ tick < r.bounds[r.owner tick].2 := by
  obtain ⟨e, he, _, hkey⟩ := exists_strikes htick
  obtain ⟨notes, hnotes⟩ := Table.mem_keys_iff.mp htick
  have hstart := (hrep.struck channel _ (Table.mem_entries_iff.mpr hnotes)).1
  exact ⟨hstart, r.mem_owner hstart (h.ended e he tick hkey)⟩

end Recording

/-! ### The groups of a channel -/

section Groups

variable {p : Plan} {i : Nat} {s : Slice}

private theorem pairwise_of_isChain {α : Type} {l : List α} {S T Q : α → α → Prop}
    (hchain : l.IsChain S) (hpairwise : l.Pairwise T)
    (hstep : ∀ a ∈ l, ∀ b ∈ l, S a b → T a b → Q a b)
    (htrans : ∀ a b c, Q a b → T b c → Q a c) : l.Pairwise Q := by
  induction l with
  | nil => exact .nil
  | cons a l ih =>
    cases l with
    | nil => simp
    | cons b l =>
      rw [List.isChain_cons_cons] at hchain
      have htail := ih hchain.2 hpairwise.tail
        (fun b hb c hc => hstep b (List.mem_cons_of_mem _ hb) c (List.mem_cons_of_mem _ hc))
      obtain ⟨hhead, hrest⟩ := List.pairwise_cons.mp hpairwise
      have hab := hstep a List.mem_cons_self b (List.mem_cons_of_mem _ List.mem_cons_self)
        hchain.1 (hhead b List.mem_cons_self)
      refine List.pairwise_cons.mpr ⟨?_, htail⟩
      intro c hc
      rcases List.mem_cons.mp hc with rfl | hc
      · exact hab
      · exact htrans a b c hab ((List.pairwise_cons.mp hrest).1 c hc)

/-- In a spaced recording there is room for a rest between a group with notes and all later
groups. -/
theorem Recording.HasSlice.groups_spaced (hslice : p.recording.HasSlice i s)
    (hrep : p.recording.WellFormed) (hspaced : p.recording.Spaced p.tables.shortestRest)
    (channel : Channel) :
    (s.groups p channel).Pairwise (fun g h =>
      g.notes.entries ≠ [] → g.tick + p.tables.shortestRest ≤ h.tick) := by
  refine pairwise_of_isChain (Group.divide_spec _ _).2 (hslice.groups_pairwise channel) ?_ ?_
  · intro g hg h hh hjoins hlt hnotes
    have hkey := (hslice.notes_iff hrep hg).mp hnotes
    obtain ⟨e, he, hchannel, hetick⟩ := Recording.exists_strikes hkey
    -- the later group was not folded into the first one: it begins with a change or at a distance
    have hchange (hplayed : h.tick ∈ p.recording.playedChanges channel.val) :
        g.tick + p.tables.shortestRest ≤ h.tick := by
      have hprogram := (p.recording.playedChanges_sublist channel.val).subset hplayed
      rw [← hchannel] at hprogram
      exact hspaced.programs e he g.tick hetick h.tick hprogram hlt
    obtain ⟨hplayed, _, hcases⟩ := Recording.change_or_struck hrep (hslice.mem_groups hh).2
    by_cases hfirst : h.first.change = true
    · exact hchange (hplayed.mp hfirst)
    · have hstruck := hcases.resolve_left hfirst
      have hnotes' : g.first.struck.entries ≠ [] :=
        fun hnil => hnotes ((((Group.divide_spec _ _).1 g hg).notes_eq_nil_iff.1).mpr hnil)
      have hfar : ¬ h.tick - g.tick < p.tables.shortestRest := by
        intro hnear
        simp [Group.joins, Table.isEmpty, hstruck, hnotes', hfirst, hnear] at hjoins
      omega
  · intro g h k hgh hhk hnotes
    have := hgh hnotes
    omega

end Groups

/-! ### Leaving a chord in time -/

/-- A chord that has room for a rest before whatever comes next is left by then. -/
theorem Chord.leave_le {t : LengthTables} (ht : t.Proper) {c : Chord}
    (hrest : ∃ e ∈ t.rests.entries, t.minRest ≤ e.1)
    (hroom : ∀ tick, (c.next = some tick ∨ c.slice.endTick = tick) →
      c.tick + t.shortestRest ≤ tick)
    {tick : Int} (htick : c.next = some tick ∨ c.slice.endTick = tick) : c.leave t ≤ tick := by
  by_cases hlt : tick < c.noteEnd
  · obtain ⟨cut, hcut, hle⟩ := exists_cut htick hlt
    have hspace := hroom cut (cut?_eq_some hcut).2
    have hsome : (c.rest? t).isSome := by
      rw [rest?, hcut]
      exact ht.isSome_restText? hrest (by omega)
    rw [leave, if_pos hsome, hcut]
    exact hle
  · cases hinside : c.rest? t with
    | none =>
      rw [leave_of_no_rest hinside]
      omega
    | some length =>
      have := (cut?_eq_some (leave_of_rest hinside).1).1
      omega

section Onsets

variable {groups : List Group} {tick next : Int}

/-- The next onset is that of a later group with notes. -/
theorem Group.of_nextOnset? (h : nextOnset? groups tick = some next) :
    ∃ g ∈ groups, g.notes.entries ≠ [] ∧ g.tick = next ∧ tick < next := by
  obtain ⟨g, hg, rfl⟩ := List.mem_map.mp (List.mem_of_find?_eq_some h)
  obtain ⟨hmem, hnotes⟩ := List.mem_filter.mp hg
  refine ⟨g, hmem, ?_, rfl, by simpa using List.find?_some h⟩
  intro hnil
  simp [Table.isEmpty, hnil] at hnotes

/-- No later group with notes comes before the next onset. -/
theorem Group.exists_nextOnset? (hpairwise : groups.Pairwise (fun g h => g.tick < h.tick))
    {g : Group} (hg : g ∈ groups) (hnotes : g.notes.entries ≠ []) (hlt : tick < g.tick) :
    ∃ next, nextOnset? groups tick = some next ∧ next ≤ g.tick := by
  have honset : g.tick ∈ onsets groups :=
    List.mem_map.mpr ⟨g, List.mem_filter.mpr ⟨hg, by simp [Table.isEmpty, hnotes]⟩, rfl⟩
  have hsorted : (onsets groups).Pairwise (· < ·) :=
    List.pairwise_map.mpr (hpairwise.filter _)
  unfold nextOnset?
  generalize onsets groups = l at honset hsorted
  induction l with
  | nil => simp at honset
  | cons a l ih =>
    by_cases ha : tick < a
    · refine ⟨a, List.find?_cons_of_pos (by simpa using ha), ?_⟩
      rcases List.mem_cons.mp honset with heq | hmem
      · exact Int.le_of_eq heq.symm
      · exact Int.le_of_lt ((List.pairwise_cons.mp hsorted).1 _ hmem)
    · rw [List.find?_cons_of_neg (by simpa using ha)]
      rcases List.mem_cons.mp honset with heq | hmem
      · omega
      · exact ih hmem (List.pairwise_cons.mp hsorted).2

end Onsets

/-! ### The order of what is due -/

/-- When an action is due for a channel: slices begin for all channels, and chords sound on their
own. -/
def Action.due? (channel : Channel) : Action → Option Int
  | beginSlice slice _ => some slice.beginTick
  | chord c => if c.channel = channel then some c.tick else none
  | _ => none

/-- A chord is due for its channel at its onset. -/
theorem Action.due?_chord {c : Chord} {channel : Channel} {tick : Int} :
    (chord c).due? channel = some tick ↔ c.channel = channel ∧ c.tick = tick := by
  unfold due?
  by_cases h : c.channel = channel <;> simp [h]

/-- An action leaves the parts in time for a later one: the begin of a slice all of them, and a
chord those of its channel. -/
def Action.Before (t : LengthTables) (a b : Action) : Prop :=
  match a with
  | .beginSlice slice _ => ∀ channel tick, b.due? channel = some tick → slice.beginTick ≤ tick
  | .chord c => ∀ tick, b.due? c.channel = some tick → c.leave t ≤ tick
  | _ => True

section Order

variable {p : Plan} {i : Nat} {s : Slice} {channel : Channel} {g : Group}

/-- The chords of a slice of a spaced recording lie within the slice. -/
theorem Recording.HasSlice.within (hslice : p.recording.HasSlice i s)
    (hrep : p.recording.WellFormed) (hspaced : p.recording.Spaced p.tables.shortestRest)
    (hg : g ∈ s.groups p channel) (hnotes : g.notes.entries ≠ []) :
    0 ≤ g.tick ∧ s.beginTick ≤ g.tick ∧ g.tick < s.endTick := by
  obtain ⟨hstart, hlt, hin⟩ := hspaced.mem_owner hrep ((hslice.notes_iff hrep hg).mp hnotes)
  have hbounds := hslice.bounds
  rw [← (hslice.mem_groups hg).1, List.getElem?_eq_getElem hlt, Option.some.injEq] at hbounds
  rw [hbounds] at hin
  exact ⟨hstart, hin⟩

/-- There is room for a rest between a chord and the next one. -/
theorem Recording.HasSlice.room_next (hslice : p.recording.HasSlice i s)
    (hrep : p.recording.WellFormed) (hspaced : p.recording.Spaced p.tables.shortestRest)
    (hg : g ∈ s.groups p channel) (hnotes : g.notes.entries ≠ []) {next : Int}
    (hnext : Group.nextOnset? (s.groups p channel) g.tick = some next) :
    g.tick + p.tables.shortestRest ≤ next := by
  obtain ⟨h, hh, _, rfl, hlt⟩ := Group.of_nextOnset? hnext
  exact Group.rel_of_lt (hslice.groups_pairwise channel)
    (hslice.groups_spaced hrep hspaced channel) hg hh hlt hnotes

/-- The actions of a channel leave its parts in time for one another. -/
theorem Recording.HasSlice.pairwise_block (hslice : p.recording.HasSlice i s) (hp : p.Proper)
    (hspaced : p.recording.Spaced p.tables.shortestRest)
    (hrest : ∃ e ∈ p.tables.rests.entries, p.tables.minRest ≤ e.1) (channel : Channel) :
    ((Call.channelBlock s channel).actions p).Pairwise (Action.Before p.tables) := by
  have hrep := hp.recording
  simp only [Call.actions]
  split
  · exact .nil
  · refine List.pairwise_cons.mpr ⟨fun _ _ => trivial, List.pairwise_flatMap.mpr ⟨?_, ?_⟩⟩
    · intro g _
      unfold Group.actions
      split <;> split <;> simp [Action.Before]
    · apply (hslice.groups_pairwise channel).imp_of_mem
      intro g h hg hh hlt a ha b hb
      rcases Group.mem_actions ha with rfl | ⟨hnotes, rfl⟩
      · trivial
      · intro tick hdue
        rcases Group.mem_actions hb with rfl | ⟨hnotes', rfl⟩
        · cases hdue
        · obtain ⟨_, rfl⟩ := Action.due?_chord.mp hdue
          obtain ⟨next, hnext, hle⟩ :=
            Group.exists_nextOnset? (hslice.groups_pairwise channel) hh hnotes' hlt
          have hspace := Group.rel_of_lt (hslice.groups_pairwise channel)
            (hslice.groups_spaced hrep hspaced channel) hg hh hlt hnotes
          have hend := (hslice.within hrep hspaced hh hnotes').2.2
          refine Int.le_trans (Chord.leave_le hp.tables hrest ?_ (.inl hnext)) hle
          rintro tick (hcut | hcut)
          · exact hslice.room_next hrep hspaced hg hnotes hcut
          · have hcut : s.endTick = tick := hcut
            change g.tick + p.tables.shortestRest ≤ tick
            omega

/-- The content of a slice leaves the parts in time for one another. -/
theorem Recording.HasSlice.pairwise_content (hslice : p.recording.HasSlice i s) (hp : p.Proper)
    (hspaced : p.recording.Spaced p.tables.shortestRest)
    (hrest : ∃ e ∈ p.tables.rests.entries, p.tables.minRest ≤ e.1) :
    (p.content s).Pairwise (Action.Before p.tables) := by
  refine List.pairwise_cons.mpr ⟨fun _ _ => trivial, List.pairwise_flatMap.mpr ⟨?_, ?_⟩⟩
  · intro channel _
    exact hslice.pairwise_block hp hspaced hrest channel
  · apply (List.nodup_finRange channelCount).imp
    intro channel channel' hne a ha b hb
    rcases Call.mem_channelBlock ha with rfl | ⟨g, _, rfl⟩ | ⟨g, _, _, rfl⟩
    · trivial
    · trivial
    · intro tick hdue
      rcases Call.mem_channelBlock hb with rfl | ⟨h, _, rfl⟩ | ⟨h, _, _, rfl⟩
      · cases hdue
      · cases hdue
      · exact absurd (Action.due?_chord.mp hdue).1.symm hne

/-- What is due in a slice is not due before its begin. -/
theorem Recording.HasSlice.begin_le_due {n : Nat} (hslice : p.recording.HasSlice i s)
    (hrep : p.recording.WellFormed) (hspaced : p.recording.Spaced p.tables.shortestRest)
    {a : Action} (ha : a ∈ p.sliceActions (s, n)) {channel : Channel} {tick : Int}
    (hdue : a.due? channel = some tick) : s.beginTick ≤ tick := by
  rw [Plan.sliceActions_eq] at ha
  rcases List.mem_cons.mp ha with rfl | ha
  · exact Int.le_of_eq (Option.some.inj hdue)
  · rcases Plan.mem_content ha with rfl | rfl | ⟨_, _, rfl⟩ | ⟨channel', g, hg, hnotes, rfl⟩
    · cases hdue
    · cases hdue
    · cases hdue
    · obtain ⟨_, hbegin, _⟩ := hslice.within hrep hspaced hg hnotes
      obtain ⟨_, rfl⟩ := Action.due?_chord.mp hdue
      exact hbegin

/-- A slice leaves the parts in time for later slices. -/
theorem Recording.HasSlice.before_later {j : Nat} {s' : Slice} (hslice : p.recording.HasSlice i s)
    (hslice' : p.recording.HasSlice j s') (hlt : i < j) (hp : p.Proper)
    (hspaced : p.recording.Spaced p.tables.shortestRest)
    (hrest : ∃ e ∈ p.tables.rests.entries, p.tables.minRest ≤ e.1) {a b : Action}
    (ha : a ∈ p.sliceActions (s, i)) (hb : b ∈ p.sliceActions (s', j)) :
    a.Before p.tables b := by
  have hrep := hp.recording
  have hbegin {channel : Channel} {tick : Int} (hdue : b.due? channel = some tick) :
      s'.beginTick ≤ tick := hslice'.begin_le_due hrep hspaced hb hdue
  obtain ⟨hle, hboundary⟩ := Recording.bounds_of_lt hslice.bounds hslice'.bounds hlt
  have hroom := p.recording.contiguous_bounds.first_le hslice.bounds_mem
  simp only [Slice.bounds] at hle hboundary hroom
  rw [Plan.sliceActions_eq] at ha
  rcases List.mem_cons.mp ha with rfl | ha
  · intro channel tick hdue
    have := hbegin hdue
    simp only
    omega
  · rcases Plan.mem_content ha with rfl | rfl | ⟨_, _, rfl⟩ | ⟨channel, g, hg, hnotes, rfl⟩
    · trivial
    · trivial
    · trivial
    · intro tick hdue
      obtain ⟨hstart, _, hend⟩ := hslice.within hrep hspaced hg hnotes
      obtain ⟨e, he, _, hkey⟩ := Recording.exists_strikes ((hslice.notes_iff hrep hg).mp hnotes)
      -- a slice that is not the last one ends at a global command, which keeps its distance
      have hglobal : s.endTick ∈ p.recording.globalTicks := by
        rcases List.mem_cons.mp hboundary with hzero | hmem
        · omega
        · exact List.mem_of_mem_filter hmem
      have hspace := hspaced.globals e he g.tick hkey s.endTick hglobal (by omega) hend
      refine Int.le_trans (Chord.leave_le hp.tables hrest ?_ (.inr rfl))
        (Int.le_trans hle (hbegin hdue))
      rintro tick (hcut | hcut)
      · exact hslice.room_next hrep hspaced hg hnotes hcut
      · have hcut : s.endTick = tick := hcut
        rw [← hcut]
        exact hspace

/-- What is due in a transcription is not due before the start of the sequence, and every chord lies
in its slice. -/
theorem Plan.due_of_mem (hp : p.Proper) {slices : List Slice}
    (hslices : p.recording.HasSlices slices)
    (hspaced : p.recording.Spaced p.tables.shortestRest) {a : Action}
    (ha : a ∈ p.actions slices) :
    (∀ channel tick, a.due? channel = some tick → 0 ≤ tick) ∧
      ∀ c, a = .chord c → c.slice.beginTick ≤ c.tick := by
  rw [Plan.actions_eq] at ha
  obtain ⟨⟨s, i⟩, hs, ha⟩ := List.mem_flatMap.mp ha
  have hslice := hslices.hasSlice _ hs
  have hstart : 0 ≤ s.beginTick :=
    (p.recording.contiguous_bounds.first_le hslice.bounds_mem).1
  have hbegin {channel : Channel} {tick : Int} (hdue : a.due? channel = some tick) :
      s.beginTick ≤ tick := hslice.begin_le_due hp.recording hspaced ha hdue
  constructor
  · intro channel tick hdue
    exact Int.le_trans hstart (hbegin hdue)
  · rintro c rfl
    have hsame : c.slice = s := by
      rw [Plan.sliceActions_eq] at ha
      rcases List.mem_cons.mp ha with hb | ha
      · cases hb
      · rcases Plan.mem_content ha with hb | hb | ⟨_, _, hb⟩ | ⟨channel, g, _, _, hb⟩
        · cases hb
        · cases hb
        · cases hb
        · rw [Action.chord.inj hb]
          rfl
    rw [hsame]
    exact hbegin (Action.due?_chord.mpr ⟨rfl, rfl⟩)

/-- Every action of a transcription of a spaced recording leaves the parts in time for all later
ones. -/
theorem Plan.pairwise_actions (hp : p.Proper) {slices : List Slice}
    (hslices : p.recording.HasSlices slices)
    (hspaced : p.recording.Spaced p.tables.shortestRest)
    (hrest : ∃ e ∈ p.tables.rests.entries, p.tables.minRest ≤ e.1) :
    (p.actions slices).Pairwise (Action.Before p.tables) := by
  rw [Plan.actions_eq, List.pairwise_flatMap]
  constructor
  · rintro ⟨s, i⟩ hs
    have hslice := hslices.hasSlice _ hs
    rw [Plan.sliceActions_eq]
    rw [List.pairwise_cons]
    constructor
    · intro b hb channel tick hdue
      have hmem : b ∈ p.sliceActions (s, i) := by
        rw [Plan.sliceActions_eq]
        exact List.mem_cons_of_mem _ hb
      exact hslice.begin_le_due hp.recording hspaced hmem hdue
    · exact hslice.pairwise_content hp hspaced hrest
  · apply (pairwise_zipIdx slices).imp_of_mem
    intro a b ha hb hlt x hx y hy
    exact (hslices.hasSlice a ha).before_later (hslices.hasSlice b hb) hlt hp hspaced hrest hx hy

end Order

end Transcription
