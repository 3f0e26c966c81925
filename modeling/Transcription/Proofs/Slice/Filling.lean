import Transcription.Proofs.Recording.WellFormed
import Transcription.Slice.Cutting

/-!
# What the slices of a recording hold

Filling a slice puts an event into a timeline for every tick that belongs to the slice and at which
a note is struck or a program that is played is chosen, and nothing else. Cutting a well-formed
recording therefore always succeeds, and its slices are known from the recording.
-/

namespace Transcription

/-! ### Looking up events -/

namespace Timeline

/-- What happens at a tick of a timeline. -/
def get? (t : Timeline) (tick : Int) : Option Event :=
  (t.find? (fun e => e.1 = tick)).map Prod.snd

/-- The ticks of a timeline, in the order in which they were added. -/
def ticks (t : Timeline) : List Int := t.map Prod.fst

@[simp] theorem get?_nil (tick : Int) : Timeline.get? [] tick = none := rfl

/-- A change at one tick is seen at this tick and at no other one. -/
theorem get?_alter (t : Timeline) (tick : Int) (f : Event → Event) (k : Int) :
    (t.alter tick f).get? k =
      if tick = k then some (f ((t.get? tick).getD {})) else t.get? k := by
  induction t with
  | nil => by_cases h : tick = k <;> simp [alter, get?, h]
  | cons e rest ih =>
    by_cases he : e.1 = tick
    · have hlook : get? (e :: rest) tick = some e.2 := by simp [get?, he]
      rw [alter, if_pos he, hlook]
      by_cases h : tick = k
      · simp [get?, h]
      · have hek : e.1 ≠ k := fun hek => h (he ▸ hek)
        simp [get?, h, hek]
    · have hlook : get? (e :: rest) tick = get? rest tick := by simp [get?, he]
      rw [alter, if_neg he, hlook]
      by_cases hek : e.1 = k
      · have h : tick ≠ k := fun h => he (hek.trans h.symm)
        simp [get?, hek, h]
      · have hrest : get? (e :: alter tick f rest) k = get? (alter tick f rest) k := by
          simp [get?, hek]
        have hold : get? (e :: rest) k = get? rest k := by simp [get?, hek]
        rw [hrest, hold, ih]

/-- A change adds its tick at the end unless it is there. -/
theorem ticks_alter (t : Timeline) (tick : Int) (f : Event → Event) :
    (t.alter tick f).ticks = if tick ∈ t.ticks then t.ticks else t.ticks ++ [tick] := by
  induction t with
  | nil => rfl
  | cons e rest ih =>
    by_cases he : e.1 = tick
    · simp [alter, ticks, he]
    · have hcons : ticks (alter tick f (e :: rest)) = e.1 :: ticks (alter tick f rest) := by
        simp [alter, ticks, he]
      have hmem : tick ∈ ticks (e :: rest) ↔ tick ∈ ticks rest := by
        simp [ticks, Ne.symm he]
      rw [hcons, ih]
      by_cases h : tick ∈ ticks rest
      · rw [if_pos h, if_pos (hmem.mpr h)]
        rfl
      · rw [if_neg h, if_neg (fun h' => h (hmem.mp h'))]
        rfl

/-- A change keeps the ticks of a timeline distinct. -/
theorem nodup_ticks_alter {t : Timeline} (h : t.ticks.Nodup) (tick : Int) (f : Event → Event) :
    (t.alter tick f).ticks.Nodup := by
  rw [ticks_alter]
  split
  · exact h
  · rename_i hnew
    rw [List.nodup_append]
    refine ⟨h, by simp, fun a ha b hb => ?_⟩
    rintro rfl
    exact hnew (List.mem_singleton.mp hb ▸ ha)

/-- An event of a timeline with distinct ticks is what happens at its tick. -/
theorem mem_iff_get? {t : Timeline} (h : t.ticks.Nodup) {tick : Int} {e : Event} :
    (tick, e) ∈ t ↔ t.get? tick = some e := by
  constructor
  · intro hmem
    have hsome : (t.find? (fun e' => e'.1 = tick)).isSome := by
      rw [List.find?_isSome]
      exact ⟨(tick, e), hmem, by simp⟩
    obtain ⟨e', hfound⟩ := Option.isSome_iff_exists.mp hsome
    have hkey : e'.1 = tick := by simpa using List.find?_some hfound
    have heq : e' = (tick, e) :=
      List.inj_on_of_nodup_map h (List.mem_of_find?_eq_some hfound) hmem hkey
    simp [get?, hfound, heq]
  · intro hget
    obtain ⟨e', hfound, rfl⟩ := Option.map_eq_some_iff.mp hget
    have hkey : e'.1 = tick := by simpa using List.find?_some hfound
    exact hkey ▸ List.mem_of_find?_eq_some hfound

/-- A sorted timeline has the events of the old one. -/
theorem mem_sorted {t : Timeline} (h : t.ticks.Nodup) {tick : Int} {e : Event} :
    (tick, e) ∈ t.sorted ↔ t.get? tick = some e := by
  rw [sorted, Table.mem_entries_ofList h, mem_iff_get? h]

/-! ### Adding events -/

/-- Change what happens at the ticks of several items, one after the other. -/
def alterAll {α : Type} (tick : α → Int) (f : α → Event → Event) (items : List α)
    (t : Timeline) : Timeline :=
  items.foldl (fun t a => t.alter (tick a) (f a)) t

variable {α : Type} {tick : α → Int} {f : α → Event → Event} {items : List α} {t : Timeline}

/-- Changes keep the ticks of a timeline distinct. -/
theorem nodup_ticks_alterAll (h : t.ticks.Nodup) : (alterAll tick f items t).ticks.Nodup := by
  induction items generalizing t with
  | nil => exact h
  | cons a rest ih => exact ih (nodup_ticks_alter h _ _)

/-- What happens at a tick that is not one of the changes stays as it is. -/
theorem get?_alterAll_of_notMem {k : Int} (h : ∀ a ∈ items, tick a ≠ k) :
    (alterAll tick f items t).get? k = t.get? k := by
  induction items generalizing t with
  | nil => rfl
  | cons a rest ih =>
    have hrest := ih (t := t.alter (tick a) (f a)) (fun b hb => h b (List.mem_cons_of_mem _ hb))
    rw [get?_alter, if_neg (h a List.mem_cons_self)] at hrest
    exact hrest

/-- Of changes at distinct ticks each one is seen at its tick. -/
theorem get?_alterAll_of_mem (hnodup : (items.map tick).Nodup) {a : α} (ha : a ∈ items) :
    (alterAll tick f items t).get? (tick a) = some (f a ((t.get? (tick a)).getD {})) := by
  induction items generalizing t with
  | nil => simp at ha
  | cons b rest ih =>
    rw [List.map_cons, List.nodup_cons] at hnodup
    rcases List.mem_cons.mp ha with rfl | ha
    · have hrest : ∀ b ∈ rest, tick b ≠ tick a := fun b hb heq =>
        hnodup.1 (heq ▸ List.mem_map.mpr ⟨b, hb, rfl⟩)
      have hlook := get?_alterAll_of_notMem (f := f) (t := t.alter (tick a) (f a)) hrest
      rw [get?_alter, if_pos rfl] at hlook
      exact hlook
    · have hne : tick b ≠ tick a := fun heq =>
        hnodup.1 (heq ▸ List.mem_map.mpr ⟨a, ha, rfl⟩)
      have hlook := ih (t := t.alter (tick b) (f b)) hnodup.2 ha
      rw [get?_alter, if_neg hne] at hlook
      exact hlook

end Timeline

/-! ### Filling a slice -/

/-- The channels that a document names have the lane of their number. -/
theorem Channel.lane_of_mem {c : Int} (h : 0 ≤ c ∧ c ≤ 15) :
    ∃ lane : Channel, (lane.val : Int) = c ∧ Channel.lane c = .ok lane := by
  refine ⟨⟨c.toNat, by simp only [channelCount]; omega⟩, by simp; omega, ?_⟩
  rw [Channel.lane, dif_pos ⟨h.1, by simp only [channelCount]; omega⟩]

/-- Every channel has its lane. -/
@[simp] theorem Channel.lane_val (lane : Channel) : Channel.lane lane.val = .ok lane := by
  rw [Channel.lane, dif_pos ⟨by omega, by exact_mod_cast lane.isLt⟩]
  simp

namespace Slice

/-- A slice with another timeline for one channel. -/
def setTimeline (s : Slice) (lane : Channel) (t : Timeline) : Slice :=
  { s with timelines := s.timelines.set lane t lane.isLt }

@[simp] theorem get_setTimeline (s : Slice) (lane lane' : Channel) (t : Timeline) :
    (s.setTimeline lane t).timelines.get lane' =
      if lane = lane' then t else s.timelines.get lane' := by
  change (s.timelines.set lane t)[lane'] = if lane = lane' then t else s.timelines[lane']
  rw [Fin.getElem_fin, Vector.getElem_set]
  simp [Fin.ext_iff]

/-- An open slice takes a change of what happens at a tick. -/
theorem alterEvent_of_open {s : Slice} (hopen : s.frozen = false) (tick : Int) (lane : Channel)
    (f : Event → Event) :
    s.alterEvent tick lane.val f =
      .ok (s.setTimeline lane ((s.timelines.get lane).alter tick f)) := by
  simp [alterEvent, checkOpen, hopen, setTimeline, bind, Except.bind, pure, Except.pure]

/-- An open slice takes changes of what happens at several ticks of a channel, one after the
other. -/
theorem foldlM_alterEvent {α : Type} {s : Slice} (hopen : s.frozen = false) (lane : Channel)
    (tick : α → Int) (f : Slice → α → Event → Event)
    (hf : ∀ t, f (s.setTimeline lane t) = f s) (items : List α) (t : Timeline) :
    items.foldlM (fun s a => s.alterEvent (tick a) lane.val (f s a)) (s.setTimeline lane t) =
      .ok (s.setTimeline lane (t.alterAll tick (f s) items)) := by
  induction items generalizing t with
  | nil => rfl
  | cons a rest ih =>
    have hstep : (s.setTimeline lane t).alterEvent (tick a) lane.val (f (s.setTimeline lane t) a) =
        .ok (s.setTimeline lane (t.alter (tick a) (f s a))) := by
      rw [alterEvent_of_open (by exact hopen), get_setTimeline, if_pos rfl, hf]
      simp [setTimeline]
    rw [List.foldlM_cons, hstep]
    exact ih (t.alter (tick a) (f s a))

/-- Setting the timeline that a channel has changes nothing. -/
theorem setTimeline_self (s : Slice) (lane : Channel) :
    s.setTimeline lane (s.timelines.get lane) = s := by
  have hset : s.timelines.set lane (s.timelines.get lane) = s.timelines :=
    Vector.set_getElem_self lane.isLt
  simp [setTimeline, hset]

end Slice

namespace Recording

/-- What happens on a channel at a tick, with the notes as a slice knows them. -/
def eventAt (r : Recording) (s : Slice) (channel tick : Int) : Option Event :=
  match (r.strikesOn channel).get? tick with
  | some notes =>
    some
      { change := tick ∈ r.playedChanges channel
        notes := some (sliceNotes s channel tick notes) }
  | none => if tick ∈ r.playedChanges channel then some { change := true } else none

/-- The events of a channel that belong to a slice, in the order in which they are added. -/
def addedEvents (r : Recording) (belongs : Int → Bool) (s : Slice) (channel : Int) : Timeline :=
  Timeline.alterAll id (fun _ e => { e with change := true })
    ((r.playedChanges channel).filter belongs)
    (Timeline.alterAll Prod.fst (fun n e => { e with notes := some (sliceNotes s channel n.1 n.2) })
      ((r.strikesOn channel).entries.filter (fun e => belongs e.1)) [])

/-- The timeline of a channel in a slice to which some ticks belong. -/
def timelineIn (r : Recording) (belongs : Int → Bool) (s : Slice) (channel : Int) : Timeline :=
  (r.addedEvents belongs s channel).sorted

/-- The changes that are played are some of the changes of a channel, in their order. -/
theorem playedChanges_sublist (r : Recording) (channel : Int) :
    (r.playedChanges channel).Sublist (r.programsOn channel).keys := by
  have hspans : (r.programSpans channel).map Prod.fst = (r.programsOn channel).keys := by
    rw [programSpans, List.map_fst_zip]
    cases (r.programsOn channel).keys <;> simp
  rw [← hspans]
  exact List.filter_sublist.map Prod.fst

/-- The changes that are played have distinct ticks. -/
theorem nodup_playedChanges (r : Recording) (channel : Int) :
    (r.playedChanges channel).Nodup :=
  (r.playedChanges_sublist channel).nodup ((Table.keys_pairwise _).imp Std.ne_of_lt)

/-- The ticks of added events are distinct. -/
theorem nodup_ticks_addedEvents (r : Recording) (belongs : Int → Bool) (s : Slice)
    (channel : Int) : (r.addedEvents belongs s channel).ticks.Nodup :=
  Timeline.nodup_ticks_alterAll (Timeline.nodup_ticks_alterAll List.nodup_nil)

private theorem get?_addedStrikes (r : Recording) (belongs : Int → Bool)
    (f : Int × Table Int Int → Event → Event) (channel tick : Int) :
    (Timeline.alterAll Prod.fst f
        ((r.strikesOn channel).entries.filter (fun e => belongs e.1)) []).get? tick =
      if belongs tick then
        ((r.strikesOn channel).get? tick).map (fun notes => f (tick, notes) {})
      else none := by
  have hnodup : (((r.strikesOn channel).entries.filter (fun e => belongs e.1)).map
      Prod.fst).Nodup :=
    (List.filter_sublist.map Prod.fst).nodup ((Table.keys_pairwise _).imp Std.ne_of_lt)
  by_cases hmem : belongs tick = true ∧ tick ∈ (r.strikesOn channel).keys
  · obtain ⟨hbelongs, hkey⟩ := hmem
    obtain ⟨notes, hget⟩ := Table.mem_keys_iff.mp hkey
    have hadded : (tick, notes) ∈
        (r.strikesOn channel).entries.filter (fun e => belongs e.1) :=
      List.mem_filter.mpr ⟨Table.mem_entries_iff.mpr hget, hbelongs⟩
    have hlook := Timeline.get?_alterAll_of_mem (f := f) (t := []) hnodup hadded
    rw [hget, if_pos hbelongs]
    exact hlook
  · have hnone : ∀ e ∈ (r.strikesOn channel).entries.filter (fun e => belongs e.1),
        e.1 ≠ tick := by
      rintro e he rfl
      obtain ⟨hentry, hbelongs⟩ := List.mem_filter.mp he
      exact hmem ⟨hbelongs, List.mem_map.mpr ⟨e, hentry, rfl⟩⟩
    rw [Timeline.get?_alterAll_of_notMem hnone]
    by_cases hbelongs : belongs tick = true
    · have hget : (r.strikesOn channel).get? tick = none := by
        by_contra hsome
        obtain ⟨notes, hnotes⟩ := Option.ne_none_iff_exists'.mp hsome
        exact hmem ⟨hbelongs, Table.mem_keys_iff.mpr ⟨notes, hnotes⟩⟩
      simp [hget]
    · simp [hbelongs]

/-- The added events are what happens at the ticks that belong to the slice. -/
theorem get?_addedEvents (r : Recording) (belongs : Int → Bool) (s : Slice) (channel tick : Int) :
    (r.addedEvents belongs s channel).get? tick =
      if belongs tick then r.eventAt s channel tick else none := by
  have hstrikes := r.get?_addedStrikes belongs
    (fun n e => { e with notes := some (sliceNotes s channel n.1 n.2) }) channel tick
  have hnodup : (((r.playedChanges channel).filter belongs).map id).Nodup := by
    rw [List.map_id]
    exact (r.nodup_playedChanges channel).filter _
  unfold addedEvents
  by_cases hchange : tick ∈ (r.playedChanges channel).filter belongs
  · obtain ⟨hplayed, hbelongs⟩ := List.mem_filter.mp hchange
    have hlook := Timeline.get?_alterAll_of_mem
      (f := fun _ e => { e with change := true })
      (t := Timeline.alterAll Prod.fst
        (fun n e => { e with notes := some (sliceNotes s channel n.1 n.2) })
        ((r.strikesOn channel).entries.filter (fun e => belongs e.1)) []) hnodup hchange
    simp only [id_eq] at hlook
    rw [hlook, hstrikes, if_pos hbelongs, if_pos hbelongs, eventAt]
    cases (r.strikesOn channel).get? tick <;> simp [hplayed]
  · have hnone : ∀ k ∈ (r.playedChanges channel).filter belongs, id k ≠ tick := by
      rintro k hk rfl
      exact hchange hk
    rw [Timeline.get?_alterAll_of_notMem hnone, hstrikes]
    by_cases hbelongs : belongs tick = true
    · have hplayed : tick ∉ r.playedChanges channel := fun h =>
        hchange (List.mem_filter.mpr ⟨h, hbelongs⟩)
      rw [if_pos hbelongs, if_pos hbelongs, eventAt]
      cases (r.strikesOn channel).get? tick <;> simp [hplayed]
    · rw [if_neg hbelongs, if_neg hbelongs]

/-- The timeline of a channel in a slice has an event at a tick if the tick belongs to the slice and
something happens there. -/
theorem mem_timelineIn {r : Recording} {belongs : Int → Bool} {s : Slice} {channel tick : Int}
    {e : Event} : (tick, e) ∈ r.timelineIn belongs s channel ↔
      belongs tick = true ∧ r.eventAt s channel tick = some e := by
  rw [timelineIn, Timeline.mem_sorted (r.nodup_ticks_addedEvents belongs s channel),
    get?_addedEvents]
  by_cases h : belongs tick = true <;> simp [h]

/-! ### The events of a slice -/

section Events

variable {r : Recording} {s : Slice} {channel tick : Int} {e : Event}

/-- A note of a slice: the velocity of its strike, and its release as the slice knows it. -/
def noteIn (s : Slice) (channel tick pitch velocity : Int) : Note where
  velocity
  offTick := (s.offTick? channel pitch tick).getD s.endTick

/-- What happens at a tick has the notes that are struck there. -/
theorem get?_struck (h : r.eventAt s channel tick = some e) (pitch : Int) :
    e.struck.get? pitch =
      ((r.struckAt channel tick).get? pitch).map (noteIn s channel tick pitch) := by
  unfold eventAt at h
  unfold struckAt
  cases hnotes : (r.strikesOn channel).get? tick with
  | none =>
    rw [hnotes] at h
    simp only at h
    split at h
    · cases h
      simp [Event.struck, Table.get?_empty]
    · cases h
  | some notes =>
    rw [hnotes] at h
    cases h
    simp only [Event.struck, Option.getD_some, sliceNotes]
    rw [Table.get?_map]
    rfl

/-- What happens at a tick is a change if a program that is played is chosen there, and has notes
unless it is. -/
theorem change_or_struck (hrep : r.WellFormed) (h : r.eventAt s channel tick = some e) :
    (e.change = true ↔ tick ∈ r.playedChanges channel) ∧
      (e.struck.entries ≠ [] ↔ tick ∈ (r.strikesOn channel).keys) ∧
      (e.change = true ∨ e.struck.entries ≠ []) := by
  unfold eventAt at h
  cases hnotes : (r.strikesOn channel).get? tick with
  | none =>
    have hkey : tick ∉ (r.strikesOn channel).keys := fun hmem => by
      obtain ⟨a, ha⟩ := Table.mem_keys_iff.mp hmem
      rw [hnotes] at ha
      cases ha
    rw [hnotes] at h
    simp only at h
    split at h
    · rename_i hplayed
      cases h
      simp [hplayed, hkey, Event.struck, Table.empty]
    · cases h
  | some notes =>
    have hkey : tick ∈ (r.strikesOn channel).keys := Table.mem_keys_iff.mpr ⟨notes, hnotes⟩
    have hne := (hrep.struck channel (tick, notes) (Table.mem_entries_iff.mpr hnotes)).2.nonempty
    rw [hnotes] at h
    cases h
    have hentries : (sliceNotes s channel tick notes).entries ≠ [] := by
      intro hnil
      exact hne (List.map_eq_nil_iff.mp hnil)
    simp [hkey, Event.struck, hentries]

/-- The notes of a slice of a well-formed recording are in range. -/
theorem struck_inRange (hrep : r.WellFormed) (h : r.eventAt s channel tick = some e)
    {n : Int × Note} (hn : n ∈ e.struck.entries) :
    (0 ≤ n.1 ∧ n.1 ≤ 127) ∧ 1 ≤ n.2.velocity ∧ n.2.velocity ≤ 127 := by
  have hget : e.struck.get? n.1 = some n.2 := Table.mem_entries_iff.mp hn
  rw [get?_struck h] at hget
  obtain ⟨velocity, hvelocity, heq⟩ := Option.map_eq_some_iff.mp hget
  unfold struckAt at hvelocity
  cases hnotes : (r.strikesOn channel).get? tick with
  | none =>
    rw [hnotes] at hvelocity
    simp [Table.get?_empty] at hvelocity
  | some notes =>
    rw [hnotes] at hvelocity
    have hstruck := (hrep.struck channel (tick, notes) (Table.mem_entries_iff.mpr hnotes)).2
    have hmem : (n.1, velocity) ∈ notes.entries := Table.mem_entries_iff.mpr hvelocity
    rw [← heq]
    exact ⟨hstruck.pitch _ hmem, hstruck.velocity _ hmem⟩

end Events

/-! ### Cutting -/

/-- A slice with all the events that belong to it. -/
def filled (r : Recording) (belongs : Int → Bool) (s : Slice) : Slice :=
  { s with
    timelines := .ofFn (fun lane => r.timelineIn belongs s lane.val)
    frozen := true }

/-- The timelines of a filled slice are those of the ticks that belong to it. -/
theorem get_filled (r : Recording) (belongs : Int → Bool) (s : Slice) (lane : Channel) :
    (r.filled belongs s).timelines.get lane = r.timelineIn belongs s lane.val := by
  unfold filled
  change (Vector.ofFn (fun lane : Channel => r.timelineIn belongs s lane.val))[lane.val] = _
  rw [Vector.getElem_ofFn]

/-- Filling a slice does not change what it knows of notes. -/
theorem sliceNotes_filled (r : Recording) (belongs : Int → Bool) (s : Slice) (c tick : Int)
    (notes : Table Int Int) :
    sliceNotes (r.filled belongs s) c tick notes = sliceNotes s c tick notes := by
  simp only [sliceNotes, Slice.offTick?, filled]

/-- A filled slice has the timelines of the slice that was filled. -/
theorem timelineIn_filled (r : Recording) (belongs belongs' : Int → Bool) (s : Slice) (c : Int) :
    r.timelineIn belongs (r.filled belongs' s) c = r.timelineIn belongs s c := by
  simp only [timelineIn, addedEvents, sliceNotes_filled]

/-- Adding a channel to an open slice in which nothing happens on it yet succeeds. -/
theorem addChannel_eq (r : Recording) (belongs : Int → Bool) {s : Slice}
    (hopen : s.frozen = false) (lane : Channel) (hempty : s.timelines.get lane = []) :
    r.addChannel belongs s lane.val =
      .ok (s.setTimeline lane (r.addedEvents belongs s lane.val)) := by
  have hnotes := Slice.foldlM_alterEvent hopen lane Prod.fst
    (fun s n e => { e with notes := some (sliceNotes s lane.val n.1 n.2) }) (fun _ => rfl)
    ((r.strikesOn lane.val).entries.filter (fun e => belongs e.1)) []
  have hchanges := Slice.foldlM_alterEvent hopen lane id (fun _ _ e => { e with change := true })
    (fun _ => rfl) ((r.playedChanges lane.val).filter belongs)
  rw [← hempty, Slice.setTimeline_self] at hnotes
  refine bind_eq_ok.mpr ⟨_, hnotes, ?_⟩
  rw [hempty]
  exact hchanges _

/-- Adding channels to an open slice in which nothing happens on them yet succeeds. -/
theorem foldlM_addChannel (r : Recording) (belongs : Int → Bool) {channels : List Int}
    (hrange : ∀ c ∈ channels, 0 ≤ c ∧ c ≤ 15) (hnodup : channels.Nodup) {s : Slice}
    (hopen : s.frozen = false)
    (hempty : ∀ lane : Channel, (lane.val : Int) ∈ channels → s.timelines.get lane = []) :
    ∃ timelines, channels.foldlM (r.addChannel belongs) s = .ok { s with timelines } ∧
      ∀ lane : Channel, timelines.get lane =
        if (lane.val : Int) ∈ channels then r.addedEvents belongs s lane.val
        else s.timelines.get lane := by
  induction channels generalizing s with
  | nil => exact ⟨s.timelines, rfl, by simp⟩
  | cons c rest ih =>
    rw [List.nodup_cons] at hnodup
    obtain ⟨lane, rfl, _⟩ := Channel.lane_of_mem (hrange c List.mem_cons_self)
    have hfirst := r.addChannel_eq belongs hopen lane (hempty lane List.mem_cons_self)
    have hother (lane' : Channel) (h : (lane'.val : Int) ∈ rest) : lane ≠ lane' := by
      rintro rfl
      exact hnodup.1 h
    obtain ⟨timelines, hok, hlook⟩ := ih (fun c hc => hrange c (List.mem_cons_of_mem _ hc))
      hnodup.2 (s := s.setTimeline lane (r.addedEvents belongs s lane.val)) hopen (by
        intro lane' h
        rw [Slice.get_setTimeline, if_neg (hother lane' h)]
        exact hempty lane' (List.mem_cons_of_mem _ h))
    refine ⟨timelines, ?_, fun lane' => ?_⟩
    · rw [List.foldlM_cons]
      exact bind_eq_ok.mpr ⟨_, hfirst, hok⟩
    · rw [hlook lane', Slice.get_setTimeline]
      by_cases heq : lane = lane'
      · subst heq
        rw [if_neg hnodup.1, if_pos rfl, if_pos List.mem_cons_self]
      · have hne : (lane'.val : Int) ≠ lane.val := fun h => heq (Fin.ext (by omega))
        rw [if_neg heq]
        by_cases hmem : (lane'.val : Int) ∈ rest
        · rw [if_pos hmem, if_pos (List.mem_cons_of_mem _ hmem)]
          rfl
        · rw [if_neg hmem, if_neg (by simp [hne, hmem])]

/-- Nothing is added for a channel on which nothing is struck or chosen. -/
theorem addedEvents_of_notMem {r : Recording} {c : Int} (h : c ∉ r.channels)
    (belongs : Int → Bool) (s : Slice) : r.addedEvents belongs s c = [] := by
  rw [mem_channels, not_or, Table.mem_keys_iff, Table.mem_keys_iff] at h
  have hstrikes : r.strikesOn c = .empty := by
    cases hget : r.strikes.get? c with
    | none => simp [strikesOn, hget]
    | some a => exact absurd ⟨a, hget⟩ h.1
  have hprograms : r.programsOn c = .empty := by
    cases hget : r.programs.get? c with
    | none => simp [programsOn, hget]
    | some a => exact absurd ⟨a, hget⟩ h.2
  have hplayed : r.playedChanges c = [] := by
    have hsub := r.playedChanges_sublist c
    rw [hprograms] at hsub
    exact List.sublist_nil.mp hsub
  simp [addedEvents, hstrikes, hplayed, Table.empty, Timeline.alterAll]

/-- Filling an empty slice of a recording whose channels have lanes succeeds. -/
theorem fillSlice_eq {r : Recording} (hrange : ∀ c ∈ r.channels, 0 ≤ c ∧ c ≤ 15)
    (belongs : Int → Bool) {s : Slice} (hopen : s.frozen = false)
    (hempty : ∀ lane : Channel, s.timelines.get lane = []) :
    r.fillSlice belongs s = .ok (r.filled belongs s) := by
  have hnodup : r.channels.Nodup := (Table.keys_pairwise _).imp Std.ne_of_lt
  obtain ⟨timelines, hok, hlook⟩ :=
    r.foldlM_addChannel belongs hrange hnodup hopen (fun lane _ => hempty lane)
  refine bind_eq_ok.mpr ⟨_, hok, ?_⟩
  have htimelines : timelines.map Timeline.sorted =
      .ofFn (fun lane : Channel => r.timelineIn belongs s lane.val) := by
    apply Vector.ext
    intro i hi
    have hlane := hlook ⟨i, hi⟩
    change timelines[i] = _ at hlane
    rw [Vector.getElem_map, Vector.getElem_ofFn, hlane, timelineIn]
    split
    · rfl
    · rename_i hnot
      rw [hempty, addedEvents_of_notMem hnot]
  simp only [pure, Except.pure, Slice.freeze, filled, htimelines]

/-- The slices of a recording whose channels have lanes are its empty slices, each filled with the
ticks that belong to it. -/
theorem slices_eq {r : Recording} (hrange : ∀ c ∈ r.channels, 0 ≤ c ∧ c ≤ 15) :
    r.slices = .ok (r.emptySlices.zipIdx.map (fun s =>
      r.filled (fun tick => Slice.ownerIndex r.emptySlices tick = s.2) s.1)) := by
  have hempty (s : Slice) (hs : s ∈ r.emptySlices) : s.frozen = false ∧
      ∀ lane : Channel, s.timelines.get lane = [] := by
    obtain ⟨bounds, _, rfl⟩ := List.mem_map.mp hs
    constructor
    · rfl
    · intro lane
      change (Vector.replicate channelCount ([] : Timeline))[lane.val] = []
      exact Vector.getElem_replicate lane.isLt
  apply mapM_eq_ok
  intro s hs
  obtain ⟨hopen, hnothing⟩ := hempty s.1 (List.fst_mem_of_mem_zipIdx hs)
  exact fillSlice_eq hrange _ hopen hnothing

end Recording

end Transcription
