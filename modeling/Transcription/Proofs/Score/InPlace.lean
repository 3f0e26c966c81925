import Transcription.Proofs.Score.Groups
import Transcription.Score.InPlace

/-!
# Writing in place is writing

A note takes its length before its chord reads it, whatever was there before. So slices that are
written in place get the lines, the notices and the counts of the same slices when they are only
read, and what is left behind are the slices as they are known to be written.
-/

namespace Transcription

/-! ### Changing notes -/

namespace Table

variable {κ α β γ : Type} [LT κ]

/-- Two changes of every value are one. -/
theorem map_map (f : κ → α → β) (g : κ → β → γ) (t : Table κ α) :
    (t.map f).map g = t.map (fun k a => g k (f k a)) := by
  apply Table.ext
  simp [map]

/-- A table in which all values stay is the same. -/
theorem map_eq_self {f : κ → α → α} {t : Table κ α} (h : ∀ e ∈ t.entries, f e.1 e.2 = e.2) :
    t.map f = t := by
  have hall : t.entries.map (fun e => (e.1, f e.1 e.2)) = t.entries.map id :=
    List.map_congr_left (fun e he => by rw [h e he, id])
  exact Table.ext (hall.trans (List.map_id _))

/-- Changes that agree on the entries of a table are the same. -/
theorem map_congr {f g : κ → α → β} {t : Table κ α} (h : ∀ e ∈ t.entries, f e.1 e.2 = g e.1 e.2) :
    t.map f = t.map g := by
  apply Table.ext
  exact List.map_congr_left (fun e he => Prod.ext rfl (h e he))

/-- Changing values keeps whether there are any. -/
@[simp] theorem isEmpty_map (f : κ → α → β) (t : Table κ α) : (t.map f).isEmpty = t.isEmpty := by
  simp [isEmpty, map]

/-- Values are changed in both of two tables that complete one another. -/
theorem map_orElse [DecidableLT κ] [DecidableEq κ] [LE κ] [Std.IsLinearOrder κ]
    [Std.LawfulOrderLT κ] (f : κ → α → β) (s t : Table κ α) :
    (s.orElse t).map f = (s.map f).orElse (t.map f) := by
  apply Table.ext_get?
  intro k
  rw [get?_map, get?_orElse, get?_orElse, get?_map, get?_map]
  cases s.get? k with
  | none => rfl
  | some a => rfl

end Table

namespace Event

variable {f g : Int → Note → Note}

/-- The notes of an event are changed one by one. -/
@[simp] theorem struck_mapNotes (f : Int → Note → Note) (e : Event) :
    (e.mapNotes f).struck = e.struck.map f := by
  cases h : e.notes with
  | none => simp [struck, mapNotes, h, Table.empty, Table.map]
  | some notes => simp [struck, mapNotes, h]

/-- Two changes of the notes of an event are one. -/
theorem mapNotes_mapNotes (f g : Int → Note → Note) (e : Event) :
    (e.mapNotes f).mapNotes g = e.mapNotes (fun q n => g q (f q n)) := by
  cases h : e.notes with
  | none => simp [mapNotes, h]
  | some notes => simp [mapNotes, h, Table.map_map]

/-- Changes that agree on the notes of an event are the same. -/
theorem mapNotes_congr {e : Event} (h : ∀ n ∈ e.struck.entries, f n.1 n.2 = g n.1 n.2) :
    e.mapNotes f = e.mapNotes g := by
  cases hnotes : e.notes with
  | none => simp [mapNotes, hnotes]
  | some notes =>
    simp only [struck, hnotes, Option.getD_some] at h
    simp [mapNotes, hnotes, Table.map_congr h]

/-- An event all of whose notes stay is the same. -/
theorem mapNotes_eq_self {e : Event} (h : ∀ n ∈ e.struck.entries, f n.1 n.2 = n.2) :
    e.mapNotes f = e := by
  cases hnotes : e.notes with
  | none =>
    obtain ⟨change, notes⟩ := e
    subst hnotes
    rfl
  | some notes =>
    obtain ⟨change, _⟩ := e
    subst hnotes
    simp only [struck, Option.getD_some] at h
    simp [mapNotes, Table.map_eq_self h]

end Event

namespace Timeline

variable {f g : Int → Int → Note → Note} {t : Timeline}

/-- Two changes of the notes of a timeline are one. -/
theorem mapNotes_mapNotes (f g : Int → Int → Note → Note) (t : Timeline) :
    (t.mapNotes f).mapNotes g = t.mapNotes (fun a q n => g a q (f a q n)) := by
  simp only [mapNotes, List.map_map]
  apply List.map_congr_left
  intro e _
  simp [Event.mapNotes_mapNotes]

/-- Changes that agree on the notes of a timeline are the same. -/
theorem mapNotes_congr (h : ∀ e ∈ t, ∀ n ∈ e.2.struck.entries, f e.1 n.1 n.2 = g e.1 n.1 n.2) :
    t.mapNotes f = t.mapNotes g :=
  List.map_congr_left (fun e he => Prod.ext rfl (Event.mapNotes_congr (h e he)))

/-- A timeline all of whose notes stay is the same. -/
theorem mapNotes_eq_self (h : ∀ e ∈ t, ∀ n ∈ e.2.struck.entries, f e.1 n.1 n.2 = n.2) :
    t.mapNotes f = t := by
  have hall : t.mapNotes f = t.map id :=
    List.map_congr_left (fun e he => by rw [Event.mapNotes_eq_self (h e he), id])
  exact hall.trans (List.map_id _)

/-- A timeline is changed event by event. -/
theorem mapNotes_cons (f : Int → Int → Note → Note) (e : Int × Event) (t : Timeline) :
    mapNotes f (e :: t) = (e.1, e.2.mapNotes (f e.1)) :: mapNotes f t :=
  rfl

/-- Timelines are changed piece by piece. -/
theorem mapNotes_append (f : Int → Int → Note → Note) (t t' : Timeline) :
    (t ++ t' : Timeline).mapNotes f = t.mapNotes f ++ t'.mapNotes f :=
  List.map_append

/-- Changing notes keeps the ticks of a timeline. -/
theorem ticks_mapNotes (f : Int → Int → Note → Note) (t : Timeline) :
    (t.mapNotes f).ticks = t.ticks := by
  simp only [ticks, mapNotes, List.map_map]
  rfl

/-- A changed note is found where it was. -/
theorem note?_mapNotes (f : Int → Int → Note → Note) (t : Timeline) (tick pitch : Int) :
    (t.mapNotes f).note? tick pitch = (t.note? tick pitch).map (f tick pitch) := by
  unfold note? mapNotes
  rw [List.find?_map]
  cases hfound : t.find? ((fun e : Int × Event => decide (e.1 = tick)) ∘
      fun e => (e.1, e.2.mapNotes (f e.1))) with
  | none =>
    have hnone : t.find? (fun e => e.1 = tick) = none := hfound
    simp [hnone]
  | some e =>
    have hsome : t.find? (fun e => e.1 = tick) = some e := hfound
    have htick : e.1 = tick := by simpa using List.find?_some hsome
    simp [hsome, Table.get?_map, htick]

/-- In a timeline with distinct ticks a note is found at the tick of its event. -/
theorem note?_of_mem (hnodup : t.ticks.Nodup) {e : Int × Event} (he : e ∈ t) (pitch : Int) :
    t.note? e.1 pitch = e.2.struck.get? pitch := by
  have hget := (mem_iff_get? hnodup).mp (show (e.1, e.2) ∈ t from he)
  obtain ⟨e', hfound, heq⟩ := Option.map_eq_some_iff.mp hget
  simp [note?, hfound, heq]

end Timeline

/-! ### The notes of a group -/

namespace Timeline

/-- The earliest strike of a pitch with its tick. -/
def earliest? (t : Timeline) (pitch : Int) : Option (Int × Note) :=
  t.findSome? (fun e => (e.2.struck.get? pitch).map (fun n => (e.1, n)))

/-- The earliest strike is looked for in one event after the other. -/
theorem earliest?_cons (e : Int × Event) (t : Timeline) (pitch : Int) :
    earliest? (e :: t) pitch =
      ((e.2.struck.get? pitch).map (fun n => (e.1, n))).or (earliest? t pitch) := by
  rw [earliest?, List.findSome?_cons, earliest?]
  cases e.2.struck.get? pitch with
  | none => rfl
  | some n => rfl

/-- The earliest strike of a pitch is a note of an event. -/
theorem exists_of_earliest? {t : Timeline} {pitch tick : Int} {n : Note}
    (h : t.earliest? pitch = some (tick, n)) :
    ∃ e, (tick, e) ∈ t ∧ e.struck.get? pitch = some n := by
  obtain ⟨e, he, hnote⟩ := List.exists_of_findSome?_eq_some h
  obtain ⟨n', hn', heq⟩ := Option.map_eq_some_iff.mp hnote
  cases heq
  exact ⟨e.2, he, hn'⟩

end Timeline

namespace Group

variable (g : Group)

private theorem get?_foldl_placed (l : Timeline) (held : Table Int (Int × Note)) (pitch : Int) :
    (l.foldl (fun held e => held.orElse (e.2.placed e.1)) held).get? pitch =
      (held.get? pitch).or (Timeline.earliest? l pitch) := by
  induction l generalizing held with
  | nil => simp [Timeline.earliest?]
  | cons e rest ih =>
    rw [List.foldl_cons, ih, Table.get?_orElse, Event.placed, Table.get?_map, Option.or_assoc,
      Timeline.earliest?_cons]

/-- The notes of a group are the earliest strikes of their pitches. -/
theorem get?_placed (pitch : Int) : g.placed.get? pitch = g.events.earliest? pitch := by
  rw [placed, get?_foldl_placed, Event.placed, Table.get?_map, events, Timeline.earliest?_cons]

private theorem foldl_placed_map (l : Timeline) (held : Table Int (Int × Note)) :
    (l.foldl (fun held e => held.orElse (e.2.placed e.1)) held).map (fun _ e => e.2) =
      l.foldl (fun held e => held.orElse e.2.struck) (held.map (fun _ e => e.2)) := by
  induction l generalizing held with
  | nil => rfl
  | cons e rest ih =>
    have hstruck : (e.2.placed e.1).map (fun _ e => e.2) = e.2.struck := by
      rw [Event.placed, Table.map_map]
      exact Table.map_eq_self (fun _ _ => rfl)
    rw [List.foldl_cons, ih, List.foldl_cons, Table.map_orElse, hstruck]

/-- The notes of a group are those with a place. -/
theorem notes_eq_placed : g.notes = g.placed.map (fun _ e => e.2) := by
  rw [placed, foldl_placed_map, notes]
  congr 1
  rw [Event.placed, Table.map_map]
  exact (Table.map_eq_self (fun _ _ => rfl)).symm

/-- The places of the notes of a group, by pitch. -/
def places : List (Int × Int) := g.placed.entries.map (fun e => (e.1, e.2.1))

/-- A place of a group is the tick of the earliest strike of its pitch. -/
theorem mem_places {pitch tick : Int} :
    (pitch, tick) ∈ g.places ↔ ∃ n, g.events.earliest? pitch = some (tick, n) := by
  simp only [places, List.mem_map, Prod.mk.injEq]
  constructor
  · rintro ⟨⟨q, a, n⟩, he, rfl, rfl⟩
    exact ⟨n, by rw [← get?_placed]; exact Table.mem_entries_iff.mp he⟩
  · rintro ⟨n, hn⟩
    rw [← get?_placed] at hn
    exact ⟨(pitch, tick, n), Table.mem_entries_iff.mpr hn, rfl, rfl⟩

/-- The places of a group are at the ticks of its events. -/
theorem tick_of_mem_places {pitch tick : Int} (h : (pitch, tick) ∈ g.places) :
    tick ∈ g.events.ticks := by
  obtain ⟨n, hn⟩ := g.mem_places.mp h
  obtain ⟨e, he, _⟩ := Timeline.exists_of_earliest? hn
  exact List.mem_map.mpr ⟨(tick, e), he, rfl⟩

end Group

/-! ### Marking the notes of a group -/

namespace Timeline

/-- Set the lengths of the notes at some places. -/
def markAt (f : Note → WrittenLength) (places : List (Int × Int)) (t : Timeline) : Timeline :=
  t.mapNotes (fun tick pitch n =>
    if (pitch, tick) ∈ places then { n with written := some (f n) } else n)

variable {f : Note → WrittenLength} {places : List (Int × Int)} {t : Timeline}

/-- A note at one of the places is marked. -/
theorem note?_markAt {tick pitch : Int} {n : Note} (hn : t.note? tick pitch = some n)
    (hplace : (pitch, tick) ∈ places) :
    (t.markAt f places).note? tick pitch = some { n with written := some (f n) } := by
  rw [markAt, note?_mapNotes, hn]
  simp [hplace]

/-- A timeline stays where there are no places. -/
theorem markAt_of_notMem (h : ∀ e ∈ places, e.2 ∉ t.ticks) : t.markAt f places = t := by
  apply mapNotes_eq_self
  intro e he n _
  rw [if_neg]
  intro hplace
  exact h _ hplace (List.mem_map.mpr ⟨e, he, rfl⟩)

/-- Marking the earliest strikes of all pitches marks each event apart from the pitches that come
before it. -/
theorem markWritten_eq (hnodup : t.ticks.Nodup) (isWritten : Int → Bool) :
    markWritten f isWritten t = t.mapNotes (fun tick pitch n =>
      if isWritten pitch = false ∧ (t.earliest? pitch).map Prod.fst = some tick then
        { n with written := some (f n) }
      else n) := by
  induction t generalizing isWritten with
  | nil => rfl
  | cons e rest ih =>
    obtain ⟨tick, e⟩ := e
    have hsplit : tick ∉ ticks rest ∧ (ticks rest).Nodup := List.nodup_cons.mp hnodup
    obtain ⟨hnew, hrest⟩ := hsplit
    rw [markWritten, mapNotes_cons]
    congr 1
    · refine Prod.ext rfl (Event.mapNotes_congr (f := fun pitch n =>
        if isWritten pitch then n else { n with written := some (f n) }) (fun n hn => ?_))
      have hfirst : earliest? ((tick, e) :: rest) n.1 = some (tick, n.2) := by
        rw [earliest?_cons, Table.mem_entries_iff.mp hn]
        rfl
      rw [hfirst]
      cases hwritten : isWritten n.1 with
      | true => simp
      | false => simp
    · rw [ih hrest]
      apply mapNotes_congr
      intro e' he' n _
      have hlater : e'.1 ≠ tick := fun heq => hnew (heq ▸ List.mem_map.mpr ⟨e', he', rfl⟩)
      have hpitch : ((isWritten n.1 || e.struck.contains n.1) = false ∧
          (earliest? rest n.1).map Prod.fst = some e'.1) ↔ (isWritten n.1 = false ∧
          (earliest? ((tick, e) :: rest) n.1).map Prod.fst = some e'.1) := by
        rw [earliest?_cons, Table.contains]
        cases e.struck.get? n.1 with
        | none => simp
        | some n' => simp [Ne.symm hlater]
      exact if_congr hpitch rfl rfl

end Timeline

/-- A group is marked at its places. -/
theorem Group.markWritten_events {f : Note → WrittenLength} (g : Group)
    (hnodup : g.events.ticks.Nodup) :
    Timeline.markWritten f (fun _ => false) g.events = g.events.markAt f g.places := by
  rw [Timeline.markWritten_eq hnodup]
  apply Timeline.mapNotes_congr
  intro e _ n _
  have hplace : ((fun _ => false) n.1 = false ∧
      (g.events.earliest? n.1).map Prod.fst = some e.1) ↔ (n.1, e.1) ∈ g.places := by
    rw [mem_places, Option.map_eq_some_iff]
    constructor
    · rintro ⟨_, ⟨_, n'⟩, hn', rfl⟩
      exact ⟨n', hn'⟩
    · rintro ⟨n', hn'⟩
      exact ⟨rfl, (e.1, n'), hn', rfl⟩
  exact if_congr hplace rfl rfl

namespace InPlace

open Writing

variable {p : Plan}

/-! ### Lengths -/

/-- A note of a chord at `tick` with the length it is written with. -/
def placedTone (p : Plan) (tick : Int) (next : Option Int) (e : Int × Int × Note) : Score.Tone where
  pitch := e.1
  velocity := e.2.2.velocity
  held := e.2.2.offTick - tick
  written := p.tables.write tick next e.2.2

/-- The notes of a chord are those of its group with a place. -/
theorem tones_eq (p : Plan) (next : Option Int) (g : Group) :
    Score.tones p next g = g.placed.entries.map (placedTone p g.tick next) := by
  rw [Score.tones, g.notes_eq_placed, Table.map, List.map_map]
  rfl

/-- A note that is found is resolved. -/
theorem resolveNote_eq {t : Timeline} {e : Int × Int × Note}
    (hread : t.note? e.2.1 e.1 = some e.2.2) (channel tick : Int) (next : Option Int) :
    resolveNote p channel tick next t (e.1, e.2.1) = do
      act (fun s => s.countTone channel tick (placedTone p tick next e))
      return t.setWritten e.2.1 e.1 (p.tables.write tick next e.2.2) := by
  rw [resolveNote, readNote]
  simp only [hread]
  rfl

/-- To set the length of one note and then those of others is to mark all of them. -/
theorem markAt_setWritten {t : Timeline} (hnodup : t.ticks.Nodup) {f : Note → WrittenLength}
    {e : Int × Int × Note} (hread : t.note? e.2.1 e.1 = some e.2.2) {places : List (Int × Int)}
    (hnew : (e.1, e.2.1) ∉ places) :
    (t.setWritten e.2.1 e.1 (f e.2.2)).markAt f places = t.markAt f ((e.1, e.2.1) :: places) := by
  rw [Timeline.setWritten, Timeline.markAt, Timeline.mapNotes_mapNotes]
  apply Timeline.mapNotes_congr
  intro e' he' n hn
  have hnote : t.note? e'.1 n.1 = some n.2 := by
    rw [Timeline.note?_of_mem hnodup he']
    exact Table.mem_entries_iff.mp hn
  by_cases hplace : e'.1 = e.2.1 ∧ n.1 = e.1
  · have hsame : n.2 = e.2.2 := by
      rw [hplace.1, hplace.2, hread] at hnote
      exact (Option.some.inj hnote).symm
    rw [if_pos hplace, hplace.1, hplace.2, if_neg hnew, if_pos List.mem_cons_self, hsame]
  · have hother : (n.1, e'.1) ∈ (e.1, e.2.1) :: places ↔ (n.1, e'.1) ∈ places := by
      rw [List.mem_cons, or_iff_right]
      rintro heq
      exact hplace ⟨congrArg Prod.snd heq, congrArg Prod.fst heq⟩
    rw [if_neg hplace]
    exact if_congr hother.symm rfl rfl

/-- Notes that are found are resolved one after the other: all of them are counted and marked. -/
theorem foldlM_resolveNote {l : List (Int × Int × Note)} (hpitches : (l.map Prod.fst).Nodup)
    {t : Timeline} (hnodup : t.ticks.Nodup) (hread : ∀ e ∈ l, t.note? e.2.1 e.1 = some e.2.2)
    (channel tick : Int) (next : Option Int) :
    (l.map (fun e => (e.1, e.2.1))).foldlM (resolveNote p channel tick next) t = do
      act (Score.countTones channel tick (l.map (placedTone p tick next)))
      return t.markAt (p.tables.write tick next) (l.map (fun e => (e.1, e.2.1))) := by
  induction l generalizing t with
  | nil =>
    rw [List.map_nil, Timeline.markAt_of_notMem (by simp)]
    rfl
  | cons e rest ih =>
    rw [List.map_cons, List.nodup_cons] at hpitches
    have hfirst := hread e List.mem_cons_self
    have hnew : (e.1, e.2.1) ∉ rest.map (fun e => (e.1, e.2.1)) := by
      intro hmem
      obtain ⟨e', he', heq⟩ := List.mem_map.mp hmem
      exact hpitches.1 (List.mem_map.mpr ⟨e', he', (Prod.mk.inj heq).1⟩)
    have hlater : ∀ e' ∈ rest, (t.setWritten e.2.1 e.1 (p.tables.write tick next e.2.2)).note?
        e'.2.1 e'.1 = some e'.2.2 := by
      intro e' he'
      have hne : e'.1 ≠ e.1 := fun heq => hpitches.1 (heq ▸ List.mem_map.mpr ⟨e', he', rfl⟩)
      rw [Timeline.setWritten, Timeline.note?_mapNotes, hread e' (List.mem_cons_of_mem _ he')]
      simp [hne]
    have hticks : (t.setWritten e.2.1 e.1 (p.tables.write tick next e.2.2)).ticks.Nodup := by
      rwa [Timeline.setWritten, Timeline.ticks_mapNotes]
    rw [List.map_cons, List.foldlM_cons, resolveNote_eq hfirst, bind_assoc]
    simp only [pure_bind]
    rw [ih hpitches.2 hticks hlater, markAt_setWritten hnodup hfirst hnew]
    rfl

/-- The lengths of notes that are resolved are read back. -/
theorem mapM_readTone {l : List (Int × Int × Note)} {t : Timeline}
    (hread : ∀ e ∈ l, t.note? e.2.1 e.1 = some e.2.2) (tick : Int) (next : Option Int) :
    (l.map (fun e => (e.1, e.2.1))).mapM (readTone
      (t.markAt (p.tables.write tick next) (l.map (fun e => (e.1, e.2.1)))) tick) =
      .ok (l.map (placedTone p tick next)) := by
  rw [List.mapM_map]
  apply mapM_eq_ok
  intro e he
  have hplace : (e.1, e.2.1) ∈ l.map (fun e => (e.1, e.2.1)) := List.mem_map.mpr ⟨e, he, rfl⟩
  have hmarked := Timeline.note?_markAt (f := p.tables.write tick next) (hread e he) hplace
  rw [Function.comp_apply, readTone, readNote, hmarked]
  rfl

/-! ### Groups -/

/-- A group whose notes are found is written in place as it is written, and leaves its notes
marked. -/
theorem group_eq {t : Timeline} (hnodup : t.ticks.Nodup) {g : Group}
    (hread : ∀ e ∈ g.placed.entries, t.note? e.2.1 e.1 = some e.2.2) (current : Slice)
    (channel : Int) (lane : Channel) (groups : List Group) :
    group p current channel lane groups t g = do
      Writing.group p current channel lane groups g
      return t.markAt (p.tables.write g.tick (Group.nextOnset? groups g.tick)) g.places := by
  set next := Group.nextOnset? groups g.tick with hnext
  have hpitches : (g.placed.entries.map Prod.fst).Nodup :=
    g.placed.keys_pairwise.imp Int.ne_of_lt
  have hresolve := foldlM_resolveNote (p := p) hpitches hnodup hread channel g.tick next
  have hreadBack : lift (g.places.mapM (readTone
      (t.markAt (p.tables.write g.tick next) g.places) g.tick)) =
        (pure (g.placed.entries.map (placedTone p g.tick next)) : Writing _) := by
    rw [Group.places, mapM_readTone hread]
    rfl
  unfold group Writing.group
  rw [← Group.places] at hresolve ⊢
  simp only [← hnext, tones_eq]
  by_cases hnil : g.placed.entries = []
  · have hplaces : g.places = [] := by simp [Group.places, hnil]
    have hsame : t.markAt (p.tables.write g.tick next) [] = t :=
      Timeline.markAt_of_notMem (by simp)
    simp only [hplaces, hnil, List.map_nil, if_true, hsame]
    split <;> simp
  · have hplaces : g.places ≠ [] := by simpa [Group.places] using hnil
    have htones : g.placed.entries.map (placedTone p g.tick next) ≠ [] := by simpa using hnil
    simp only [hplaces, htones, if_false, hresolve, bind_assoc, pure_bind, hreadBack]
    split <;> simp

/-- Between other events, only the events of a group are marked at its places. -/
theorem markAt_places {before after : Timeline} {g : Group}
    (hnodup : (before ++ (g.events ++ after) : Timeline).ticks.Nodup) (f : Note → WrittenLength) :
    (before ++ (g.events ++ after) : Timeline).markAt f g.places =
      before ++ (Timeline.markWritten f (fun _ => false) g.events ++ after) := by
  have hticks : (before.ticks ++ (g.events.ticks ++ Timeline.ticks after)).Nodup := by
    simpa [Timeline.ticks] using hnodup
  rw [List.nodup_append] at hticks
  obtain ⟨_, hrest, hbefore⟩ := hticks
  rw [List.nodup_append] at hrest
  obtain ⟨hevents, _, hafter⟩ := hrest
  have hkeepBefore : before.markAt f g.places = before := by
    apply Timeline.markAt_of_notMem
    intro e he htick
    exact hbefore e.2 htick e.2 (List.mem_append_left _ (g.tick_of_mem_places he)) rfl
  have hkeepAfter : Timeline.markAt f g.places after = after := by
    apply Timeline.markAt_of_notMem
    intro e he htick
    exact hafter e.2 (g.tick_of_mem_places he) e.2 htick rfl
  have hmarked := g.markWritten_events (f := f) hevents
  rw [hmarked]
  unfold Timeline.markAt at hkeepBefore hkeepAfter ⊢
  rw [Timeline.mapNotes_append, Timeline.mapNotes_append, hkeepBefore, hkeepAfter]

/-- The notes of a group are found among other events. -/
theorem note?_of_mem_placed {t : Timeline} (hnodup : t.ticks.Nodup) {g : Group}
    (hevents : ∀ e ∈ g.events, e ∈ t) {e : Int × Int × Note} (he : e ∈ g.placed.entries) :
    t.note? e.2.1 e.1 = some e.2.2 := by
  have hget : g.placed.get? e.1 = some (e.2.1, e.2.2) := Table.mem_entries_iff.mp he
  rw [Group.get?_placed] at hget
  obtain ⟨event, hmem, hnote⟩ := Timeline.exists_of_earliest? hget
  rw [Timeline.note?_of_mem hnodup (hevents _ hmem)]
  exact hnote

/-- Groups are written in place one after the other, and each leaves its events marked. -/
theorem foldlM_group (current : Slice) (channel : Int) (lane : Channel) (groups rest : List Group)
    {before : Timeline} (hnodup : (before ++ rest.flatMap Group.events : Timeline).ticks.Nodup) :
    rest.foldlM (group p current channel lane groups) (before ++ rest.flatMap Group.events) = do
      rest.forM (Writing.group p current channel lane groups)
      return before ++ rest.flatMap (fun g => Timeline.markWritten
        (p.tables.write g.tick (Group.nextOnset? groups g.tick)) (fun _ => false) g.events) := by
  induction rest generalizing before with
  | nil => rfl
  | cons g rest ih =>
    rw [List.flatMap_cons] at hnodup ⊢
    have hread : ∀ e ∈ g.placed.entries, Timeline.note?
        (before ++ (g.events ++ rest.flatMap Group.events)) e.2.1 e.1 = some e.2.2 :=
      fun e he => note?_of_mem_placed hnodup
        (fun e' he' => List.mem_append_right _ (List.mem_append_left _ he')) he
    have hmarked := markAt_places hnodup
      (p.tables.write g.tick (Group.nextOnset? groups g.tick))
    have hticks : (before ++ Timeline.markWritten
        (p.tables.write g.tick (Group.nextOnset? groups g.tick)) (fun _ => false) g.events ++
          rest.flatMap Group.events : Timeline).ticks.Nodup := by
      rw [List.append_assoc, ← hmarked, Timeline.markAt, Timeline.ticks_mapNotes]
      exact hnodup
    rw [List.foldlM_cons, group_eq hnodup hread, hmarked, bind_assoc]
    simp only [pure_bind]
    rw [← List.append_assoc, ih hticks, List.flatMap_cons]
    simp only [List.forM_eq_forM, List.forM_cons, bind_assoc, List.append_assoc]

/-! ### Slices -/

/-- A timeline in which ticks ascend is written in place as it is written. -/
theorem foldlM_divide {t : Timeline} (hnodup : t.ticks.Nodup) (current : Slice) (channel : Int)
    (lane : Channel) :
    (Group.divide p.tables.shortestRest t).foldlM
        (group p current channel lane (Group.divide p.tables.shortestRest t)) t = do
      (Group.divide p.tables.shortestRest t).forM
        (Writing.group p current channel lane (Group.divide p.tables.shortestRest t))
      return t.written p.tables := by
  have hevents := Group.flatMap_events_divide p.tables.shortestRest t
  have hticks : ([] ++ (Group.divide p.tables.shortestRest t).flatMap Group.events :
      Timeline).ticks.Nodup := by
    rwa [hevents]
  have h :=
    foldlM_group (p := p) current channel lane (Group.divide p.tables.shortestRest t) _ hticks
  rw [hevents, List.nil_append] at h
  exact h

variable {t : LengthTables} {s : Slice}

/-- The timelines of a slice, the first ones written. -/
def lanesWritten (t : LengthTables) (s : Slice) (count : Nat) : Vector Timeline channelCount :=
  .ofFn (fun lane : Channel =>
    if lane.val < count then (s.timelines.get lane).written t else s.timelines.get lane)

/-- A slice whose first lanes are written. -/
def writtenUpTo (t : LengthTables) (s : Slice) (count : Nat) : Slice :=
  { s with timelines := lanesWritten t s count }

/-- The first timelines are written and the others are as they were. -/
theorem get_lanesWritten (t : LengthTables) (s : Slice) (count : Nat) (lane : Channel) :
    (lanesWritten t s count).get lane =
      if lane.val < count then (s.timelines.get lane).written t else s.timelines.get lane := by
  change (Vector.ofFn _)[lane.val] = _
  rw [Vector.getElem_ofFn]

/-- Timelines that are the same on every lane are the same. -/
theorem timelines_ext {v v' : Vector Timeline channelCount} (h : ∀ lane : Channel,
    v.get lane = v'.get lane) : v = v' := by
  apply Vector.ext
  intro i hi
  exact h ⟨i, hi⟩

/-- Before the first lane nothing is written. -/
theorem writtenUpTo_zero (t : LengthTables) (s : Slice) : writtenUpTo t s 0 = s := by
  have hlanes : lanesWritten t s 0 = s.timelines := by
    apply timelines_ext
    intro lane
    rw [get_lanesWritten, if_neg (by omega)]
  rw [writtenUpTo, hlanes]

/-- After the last lane all of a slice is written. -/
theorem writtenUpTo_all (t : LengthTables) (s : Slice) :
    writtenUpTo t s channelCount = s.written t := by
  have hlanes : lanesWritten t s channelCount = s.timelines.map (Timeline.written t) := by
    apply timelines_ext
    intro lane
    rw [get_lanesWritten, if_pos lane.isLt]
    change _ = (s.timelines.map (Timeline.written t))[lane.val]
    rw [Vector.getElem_map]
    rfl
  rw [writtenUpTo, hlanes, Slice.written]

/-- With one more lane written, its timeline is set. -/
theorem setTimeline_writtenUpTo (t : LengthTables) (s : Slice) (lane : Channel) :
    (writtenUpTo t s lane.val).setTimeline lane ((s.timelines.get lane).written t) =
      writtenUpTo t s (lane.val + 1) := by
  have hset (lane' : Channel) : ((lanesWritten t s lane.val).set lane
      ((s.timelines.get lane).written t) lane.isLt).get lane' =
        if lane = lane' then (s.timelines.get lane).written t
        else (lanesWritten t s lane.val).get lane' :=
    Slice.get_setTimeline (writtenUpTo t s lane.val) lane lane' _
  have hlanes : (lanesWritten t s lane.val).set lane ((s.timelines.get lane).written t) lane.isLt =
      lanesWritten t s (lane.val + 1) := by
    apply timelines_ext
    intro lane'
    rw [hset, get_lanesWritten, get_lanesWritten]
    by_cases heq : lane = lane'
    · subst heq
      simp
    · have hne : lane'.val ≠ lane.val := fun h => heq (Fin.ext h.symm)
      have hlt : lane'.val < lane.val + 1 ↔ lane'.val < lane.val := by omega
      rw [if_neg heq]
      exact if_congr hlt.symm rfl rfl
  rw [Slice.setTimeline, writtenUpTo, hlanes, writtenUpTo]

/-- What is written of a group depends on the bounds of its slice only. -/
theorem group_setTimelines (p : Plan) (s : Slice) (timelines : Vector Timeline channelCount) :
    Writing.group p { s with timelines } = Writing.group p s :=
  rfl

/-- The music of a channel is written in place after that of the channels before. -/
theorem channelBlock_eq (hnodup : ∀ lane : Channel, (s.timelines.get lane).ticks.Nodup)
    (lane : Channel) : channelBlock p (writtenUpTo p.tables s lane.val) lane.val = do
      Writing.channelBlock p s lane.val
      return writtenUpTo p.tables s (lane.val + 1) := by
  have hlane : lift (Channel.lane lane.val) = (pure lane : Writing Channel) := by
    rw [Channel.lane_val]
    rfl
  have hget : (writtenUpTo p.tables s lane.val).timelines.get lane = s.timelines.get lane := by
    rw [writtenUpTo, get_lanesWritten, if_neg (by omega)]
  have hgroup := group_setTimelines p s (lanesWritten p.tables s lane.val)
  rw [← writtenUpTo] at hgroup
  unfold channelBlock Writing.channelBlock
  simp only [hlane, pure_bind, hget]
  by_cases hempty : s.timelines.get lane = []
  · have hsame : writtenUpTo p.tables s (lane.val + 1) = writtenUpTo p.tables s lane.val := by
      have hwritten : (s.timelines.get lane).written p.tables = [] := by
        rw [hempty]
        rfl
      rw [← setTimeline_writtenUpTo, hwritten, ← hempty, ← hget, Slice.setTimeline_self]
    simp only [hempty, if_true, pure_bind, hsame]
  · simp only [hempty, if_false, foldlM_divide (hnodup lane), hgroup, bind_assoc, pure_bind,
      ← setTimeline_writtenUpTo]
    rfl

/-- Channels are written in place one after the other. -/
theorem foldlM_channelBlock (hnodup : ∀ lane : Channel, (s.timelines.get lane).ticks.Nodup)
    {count : Nat} (hcount : count ≤ channelCount) :
    (List.range count).foldlM (fun s (channel : Nat) => channelBlock p s channel) s = do
      (List.range count).forM (fun (channel : Nat) => Writing.channelBlock p s channel)
      return writtenUpTo p.tables s count := by
  induction count with
  | zero =>
    rw [writtenUpTo_zero]
    rfl
  | succ count ih =>
    have hlast := channelBlock_eq (p := p) hnodup ⟨count, hcount⟩
    have hlast : channelBlock p (writtenUpTo p.tables s count) (count : Nat) = do
        Writing.channelBlock p s (count : Nat)
        return writtenUpTo p.tables s (count + 1) := hlast
    rw [List.range_succ, List.foldlM_append, ih (by omega)]
    simp only [List.forM_eq_forM, List.forM_append, List.foldlM_cons, List.foldlM_nil,
      List.forM_cons, List.forM_nil, bind_assoc, pure_bind, hlast]

/-- A slice in whose timelines ticks ascend is written in place as it is written, and is left
written. -/
theorem slice_eq (hnodup : ∀ lane : Channel, (s.timelines.get lane).ticks.Nodup) (number : Int) :
    slice p s number = do
      Writing.slice p s number
      return s.written p.tables := by
  unfold slice Writing.slice
  rw [foldlM_channelBlock hnodup (Nat.le_refl channelCount), writtenUpTo_all]
  simp only [bind_assoc]

/-- Slices in whose timelines ticks ascend are written in place as they are written, and are left
written. -/
theorem slices_eq {slices : List Slice}
    (hnodup : ∀ s ∈ slices, ∀ lane : Channel, (s.timelines.get lane).ticks.Nodup) :
    InPlace.slices p slices = do
      Writing.slices p slices
      return slices.map (Slice.written p.tables) := by
  have hall (numbered : List (Slice × Nat))
      (hmem : ∀ s ∈ numbered, ∀ lane : Channel, (s.1.timelines.get lane).ticks.Nodup) :
      numbered.mapM (fun s => slice p s.1 (s.2 : Int)) = do
        numbered.forM (fun s => Writing.slice p s.1 (s.2 : Int))
        return numbered.map (fun s => s.1.written p.tables) := by
    induction numbered with
    | nil => rfl
    | cons s rest ih =>
      rw [List.mapM_cons, slice_eq (hmem s List.mem_cons_self),
        ih (fun s' hs' => hmem s' (List.mem_cons_of_mem _ hs'))]
      simp only [List.forM_eq_forM, List.forM_cons, bind_assoc, pure_bind, List.map_cons]
  have hslices := hall slices.zipIdx (fun s hs => hnodup s.1 (List.fst_mem_of_mem_zipIdx hs))
  have hfst : slices.zipIdx.map (fun s => s.1.written p.tables) =
      slices.map (Slice.written p.tables) := by
    rw [← List.zipIdx_map_fst 0 slices, List.map_map, List.zipIdx_map_fst]
    rfl
  rw [hfst] at hslices
  exact hslices

end InPlace

end Transcription
