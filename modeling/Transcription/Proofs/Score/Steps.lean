import Transcription.Proofs.Reading.Lines
import Transcription.Proofs.Reading.Performance

/-!
# What an action leaves behind

Every action adds some lines and may move parts on. The begin of a slice may add a marker, changes
and chords may declare a part, and chords may jump; each of them does so on one line that is known.
All that is said of a whole run about parts, markers and jumps follows from these steps.
-/

namespace Transcription

open Writing

namespace Score

/-! ### Adding lines -/

/-- A step that adds lines and may move parts on, and changes nothing else that later lines depend
on. -/
structure Extends (new : List Line) (s s' : Score) : Prop where
  lines : s'.lines.toList = s.lines.toList ++ new
  ids : s'.roster.ids = s.roster.ids
  lanes : s'.lanes = s.lanes
  slice : s'.slice = s.slice
  markers : s'.markers = s.markers
  cursor : ∀ id, (s.part id).cursor ≤ (s'.part id).cursor

namespace Extends

variable {new new' : List Line} {s s' s'' : Score}

/-- Nothing happens. -/
theorem refl (s : Score) : Extends [] s s :=
  ⟨(List.append_nil _).symm, rfl, rfl, rfl, rfl, fun _ => Int.le_refl _⟩

/-- Two steps, one after the other. -/
theorem trans (h : Extends new s s') (h' : Extends new' s' s'') : Extends (new ++ new') s s'' where
  lines := by rw [h'.lines, h.lines, List.append_assoc]
  ids := h'.ids.trans h.ids
  lanes := h'.lanes.trans h.lanes
  slice := h'.slice.trans h.slice
  markers := h'.markers.trans h.markers
  cursor id := Int.le_trans (h.cursor id) (h'.cursor id)

/-- A line is added. -/
theorem addLine (line : Line) (s : Score) : Extends [line] s (s.addLine line) where
  lines := Array.toList_push
  ids := rfl
  lanes := rfl
  slice := rfl
  markers := rfl
  cursor _ := Int.le_refl _

/-- A part is selected, with a line of its own unless it is selected. -/
theorem select (id : PartId) (s : Score) :
    Extends (if s.current = some id then [] else [.select id]) s (s.select id) := by
  unfold Score.select
  split
  · exact refl s
  · have hline := addLine (.select id) s
    exact ⟨hline.lines, rfl, rfl, rfl, rfl, hline.cursor⟩

/-- The line that selects a part is plain. -/
theorem plain_select (id : PartId) (s : Score) :
    ∀ l ∈ if s.current = some id then [] else [Line.select id], l.Plain := by
  intro l hl
  split at hl
  · cases hl
  · cases List.mem_singleton.mp hl
    exact ⟨rfl, rfl, rfl⟩

/-- A rest is added, if there is one. -/
theorem addRest (length : Option String) (s : Score) :
    Extends (length.map Line.rest).toList s (s.addRest length) := by
  cases length with
  | none => exact refl s
  | some length => exact addLine (.rest length) s

end Extends

/-- A step that changes the state of one part adds no line and moves only this part on. -/
theorem Alters.extends {id : PartId} {part : PartState} {n : Int} {s s' : Score}
    (h : Alters id part n s s') (hcursor : (s.part id).cursor ≤ part.cursor) :
    Extends [] s s' where
  lines := by rw [h.lines, List.append_nil]
  ids := h.ids
  lanes := h.lanes
  slice := h.slice
  markers := h.markers
  cursor := h.cursor_le hcursor

/-! ### The begin of a slice -/

variable {p : Plan} {s s' : Score}

/-- A part that rests up to a tick on a line of its own is selected and gets there. -/
theorem extends_restLine {id : PartId} (hid : id ∈ s.roster.ids) {tick : Int}
    (hlt : (s.part id).cursor < tick) :
    ∃ new, Extends new s (s.restLine p id tick) ∧ (∀ l ∈ new, l.Plain) ∧
      ((s.restLine p id tick).part id).cursor = tick ∧
      ∀ id', id' ≠ id → (s.restLine p id tick).part id' = s.part id' := by
  have hselect := Extends.select id s
  have hid₁ : id ∈ (s.select id).roster.ids := by rwa [roster_select]
  have hpart (id' : PartId) : (s.select id).part id' = s.part id' := by
    rw [Score.part, roster_select, Score.part]
  obtain ⟨_, hrest⟩ := rest_alters p id (tick - (s.part id).cursor) (s.part id).cursor (s.select id)
  generalize hstep : (s.select id).rest p id (tick - (s.part id).cursor) (s.part id).cursor = x
    at hrest
  obtain ⟨text, s₁⟩ := x
  have hid₂ : id ∈ s₁.roster.ids := hrest.ids ▸ hid₁
  have hadvance := advance_alters id tick s₁
  have hall := hrest.trans hadvance
  rw [hrest.part_self hid₁] at hall
  have hcursor : ((PartState.resting p.tables (tick - (s.part id).cursor)
      ((s.select id).part id)).advanceTo tick).cursor = tick := by
    rw [PartState.cursor_advanceTo, PartState.resting, hpart]
    simp only
    omega
  have hmoved := hall.extends (by rw [hcursor, hpart]; omega)
  have hline : s.restLine p id tick = (s₁.advance id tick).addRest text := by
    simp only [restLine, hstep, advance_addRest]
  have hadded := Extends.addRest text (s₁.advance id tick)
  have hsame (id' : PartId) :
      ((s₁.advance id tick).addRest text).part id' = (s₁.advance id tick).part id' := by
    cases text <;> rfl
  rw [hline]
  refine ⟨_, (hselect.trans hmoved).trans hadded, fun l hl => ?_, ?_, fun id' hne => ?_⟩
  · simp only [List.append_nil, List.mem_append] at hl
    rcases hl with hl | hl
    · exact Extends.plain_select id s l hl
    · obtain ⟨length, _, rfl⟩ := Option.map_eq_some_iff.mp (Option.mem_toList.mp hl)
      exact ⟨rfl, rfl, rfl⟩
  · rw [hsame, hall.part_self hid₁, hcursor]
  · rw [hsame, hall.part_eq hid₁, if_neg hne, hpart]

/-- A slice can be marked if some part is declared and none is past its begin. -/
def Markable (current : Slice) (s : Score) : Prop :=
  s.roster.ids ≠ [] ∧ ∀ id ∈ s.roster.ids, (s.part id).cursor ≤ current.beginTick

/-- A slice can be marked if the part that is furthest along is not past its begin. -/
theorem markable_iff {current : Slice} {e : PartId × PartState}
    (hfurthest : s.roster.furthest? = some e) :
    Markable current s ↔ e.2.cursor ≤ current.beginTick := by
  obtain ⟨hid, hstate⟩ := Roster.mem_of_furthest? hfurthest
  have hcursor : (s.part e.1).cursor = e.2.cursor := congrArg PartState.cursor hstate
  constructor
  · intro h
    exact hcursor ▸ h.2 e.1 hid
  · intro hle
    refine ⟨List.ne_nil_of_mem hid, fun id' hid' => ?_⟩
    exact Int.le_trans (s.roster.furthest?_spec.2 e hfurthest id' hid') hle

/-- If no part is further along than a declared one, the part that is furthest along is just as far.
-/
theorem exists_furthest {id : PartId} (hid : id ∈ s.roster.ids)
    (hmax : ∀ id' ∈ s.roster.ids, (s.part id').cursor ≤ (s.part id).cursor) :
    ∃ e, s.roster.furthest? = some e ∧ e.2.cursor = (s.part id).cursor := by
  obtain ⟨hnone, hall⟩ := s.roster.furthest?_spec
  cases hfurthest : s.roster.furthest? with
  | none => exact absurd (hnone.mp hfurthest) (List.ne_nil_of_mem hid)
  | some e =>
    obtain ⟨hid', hstate⟩ := Roster.mem_of_furthest? hfurthest
    have hcursor : (s.part e.1).cursor = e.2.cursor := congrArg PartState.cursor hstate
    have hreached : (s.part id).cursor ≤ e.2.cursor := hall e hfurthest id hid
    have := hmax e.1 hid'
    exact ⟨e, rfl, by omega⟩

/-- Before a slice the part that is furthest along comes to the begin, unless it is there or past
it. So afterwards the furthest part is at the begin exactly if the slice could be marked before. -/
theorem extends_restBeforeSlice (p : Plan) (current : Slice) (s : Score) :
    ∃ new, Extends new s (s.restBeforeSlice p current) ∧ (∀ l ∈ new, l.Plain) ∧
      (Markable current s ↔ ∃ e, (s.restBeforeSlice p current).roster.furthest? = some e ∧
        e.2.cursor = current.beginTick) := by
  cases hfurthest : s.roster.furthest? with
  | none =>
    have hnone := s.roster.furthest?_spec.1.mp hfurthest
    have hsame : s.restBeforeSlice p current = s := by simp [restBeforeSlice, hfurthest]
    rw [hsame]
    exact ⟨[], Extends.refl s, by simp, by simp [Markable, hnone, hfurthest]⟩
  | some e =>
    have hmarkable : Markable current s ↔ e.2.cursor ≤ current.beginTick := markable_iff hfurthest
    have hrest := restBeforeSlice_eq p current hfurthest
    by_cases hthere : current.beginTick ≤ e.2.cursor
    · rw [hrest, if_pos hthere]
      refine ⟨[], Extends.refl s, by simp, hmarkable.trans ⟨fun hle => ?_, ?_⟩⟩
      · exact ⟨e, hfurthest, by omega⟩
      · rintro ⟨e', he', hat⟩
        cases hfurthest.symm.trans he'
        omega
    · obtain ⟨hid, hstate⟩ := Roster.mem_of_furthest? hfurthest
      have hcursor : (s.part e.1).cursor = e.2.cursor := congrArg PartState.cursor hstate
      obtain ⟨new, hextends, hplain, hat, hothers⟩ :=
        extends_restLine (p := p) hid (show (s.part e.1).cursor < current.beginTick by omega)
      rw [hrest, if_neg hthere]
      refine ⟨new, hextends, hplain, fun _ => ?_, fun _ => hmarkable.mpr (by omega)⟩
      -- the part that rested is at the begin, and no other part was that far
      have hmax : ∀ id' ∈ (s.restLine p e.1 current.beginTick).roster.ids,
          ((s.restLine p e.1 current.beginTick).part id').cursor ≤
            ((s.restLine p e.1 current.beginTick).part e.1).cursor := by
        intro id' hid'
        by_cases hself : id' = e.1
        · exact Int.le_of_eq (by rw [hself])
        · have hbehind : (s.part id').cursor ≤ e.2.cursor :=
            s.roster.furthest?_spec.2 e hfurthest id' (hextends.ids ▸ hid')
          rw [hothers id' hself, hat]
          omega
      obtain ⟨e', hfurthest', hcursor'⟩ := exists_furthest (hextends.ids ▸ hid) hmax
      exact ⟨e', hfurthest', hcursor'.trans hat⟩

/-- A slice is begun under a number: some lines are added, among them the marker of the slice if it
can be marked, on a part whose cursor is at its begin. -/
structure Begun (current : Slice) (number : Int) (s s' : Score) : Prop where
  ids : s'.roster.ids = s.roster.ids
  lanes : s'.lanes = s.lanes
  slice : s'.slice = number
  cursor : ∀ id, (s.part id).cursor ≤ (s'.part id).cursor
  lines : ∃ lead tail, (∀ l ∈ lead ++ tail, l.Plain) ∧ (∀ l ∈ tail, l.selects? = none) ∧
    ((0 < number ∧ Markable current s ∧
        s'.lines.toList = s.lines.toList ++ (lead ++ .marker number :: tail) ∧
        s'.markers = (if number ∈ s.markers then s.markers else s.markers ++ [number]) ∧
        ∃ id ∈ s.roster.ids, s'.current = some id ∧ (s'.part id).cursor = current.beginTick) ∨
      (¬ (0 < number ∧ Markable current s) ∧
        s'.lines.toList = s.lines.toList ++ (lead ++ tail) ∧ s'.markers = s.markers))

/-- A line that selects no part and is plain keeps what the begin of a slice has done. -/
theorem Begun.addLine {current : Slice} {number : Int} (h : Begun current number s s')
    (line : Line) (hplain : line.Plain) (hselects : line.selects? = none) :
    Begun current number s (s'.addLine line) := by
  obtain ⟨lead, tail, hall, htail, hlines⟩ := h.lines
  refine ⟨h.ids, h.lanes, h.slice, h.cursor, lead, tail ++ [line], fun l hl => ?_, fun l hl => ?_,
    ?_⟩
  · rw [← List.append_assoc] at hl
    rcases List.mem_append.mp hl with hl | hl
    · exact hall l hl
    · exact List.mem_singleton.mp hl ▸ hplain
  · rcases List.mem_append.mp hl with hl | hl
    · exact htail l hl
    · exact List.mem_singleton.mp hl ▸ hselects
  · have hpush : (s'.addLine line).lines.toList = s'.lines.toList ++ [line] := Array.toList_push
    rcases hlines with ⟨hpos, hmarkable, heq, hmarkers, hpart⟩ | ⟨hnot, heq, hmarkers⟩
    · refine .inl ⟨hpos, hmarkable, ?_, hmarkers, hpart⟩
      rw [hpush, heq]
      simp
    · refine .inr ⟨hnot, ?_, hmarkers⟩
      rw [hpush, heq]
      simp

/-- A marker is written if the part that is furthest along is at the begin. -/
theorem mark_of_furthest {current : Slice} {e : PartId × PartState}
    (hfurthest : s.roster.furthest? = some e) (hthere : e.2.cursor = current.beginTick) :
    s.mark current = { (s.select e.1).addLine (.marker s.slice) with
      markers := if s.slice ∈ s.markers then s.markers else s.markers ++ [s.slice] } := by
  have hslice : ((s.select e.1).addLine (.marker s.slice)).slice = s.slice :=
    (Extends.select e.1 s).slice
  have hmarkers : ((s.select e.1).addLine (.marker s.slice)).markers = s.markers :=
    (Extends.select e.1 s).markers
  simp only [mark, hfurthest, hthere, if_true, hslice, hmarkers]

/-- No marker is written otherwise. -/
theorem mark_of_not {current : Slice}
    (hnot : ¬ ∃ e, s.roster.furthest? = some e ∧ e.2.cursor = current.beginTick) :
    s.mark current = s.addNotice (.noMarker current.beginTick s.slice) := by
  unfold mark
  cases hfurthest : s.roster.furthest? with
  | none => rfl
  | some e =>
    have haway : e.2.cursor ≠ current.beginTick := fun hat => hnot ⟨e, hfurthest, hat⟩
    exact if_neg haway

/-- The begin of a slice adds its marker if the slice can be marked, and no marker otherwise. -/
theorem begun_announceSlice (p : Plan) (current : Slice) (number : Int) (s : Score) :
    Begun current number s (s.announceSlice p current number) := by
  let s₀ : Score := { s with slice := number }
  unfold announceSlice
  by_cases hpos : 0 < number
  · rw [if_pos hpos]
    obtain ⟨lead, hextends, hplain, hmarkable⟩ := extends_restBeforeSlice p current s₀
    change Begun current number s ((s₀.restBeforeSlice p current).mark current)
    generalize s₀.restBeforeSlice p current = s₁ at hextends hmarkable
    by_cases hmark : Markable current s
    · obtain ⟨e, hfurthest, hat⟩ := hmarkable.mp hmark
      obtain ⟨hid, hstate⟩ := Roster.mem_of_furthest? hfurthest
      have hselect := hextends.trans (Extends.select e.1 s₁)
      have hnumber : s₁.slice = number := hextends.slice
      have hpart : ((s₁.select e.1).part e.1).cursor = current.beginTick := by
        rw [Score.part, roster_select, hstate, hat]
      rw [mark_of_furthest hfurthest hat, hnumber]
      refine ⟨hselect.ids, hselect.lanes, hselect.slice, hselect.cursor, _, [], fun l hl => ?_,
        by simp, .inl ⟨hpos, hmark, (hselect.trans (Extends.addLine (.marker number) _)).lines, ?_,
          e.1, hextends.ids ▸ hid, current_select s₁ e.1, hpart⟩⟩
      · rw [List.append_nil] at hl
        exact (List.mem_append.mp hl).elim (hplain l) (Extends.plain_select e.1 s₁ l)
      · rw [hextends.markers]
    · rw [mark_of_not (mt hmarkable.mpr hmark)]
      refine ⟨hextends.ids, hextends.lanes, hextends.slice, hextends.cursor, lead, [], ?_, by simp,
        .inr ⟨fun h => hmark h.2, ?_, hextends.markers⟩⟩
      · simpa using hplain
      · rw [List.append_nil]
        exact hextends.lines
  · rw [if_neg hpos]
    refine ⟨rfl, rfl, rfl, fun _ => Int.le_refl _, [], [], by simp, by simp, .inr ⟨?_, ?_, rfl⟩⟩
    · exact fun h => hpos h.1
    · simp

/-- A slice is begun. -/
theorem begun_beginSlice (p : Plan) (current : Slice) (number : Int) (s : Score) :
    Begun current number s (s.beginSlice p current number) := by
  have hblank := (begun_announceSlice p current number s).addLine .blank ⟨rfl, rfl, rfl⟩ rfl
  rw [beginSlice_eq]
  split
  · exact hblank.addLine _ ⟨rfl, rfl, rfl⟩ rfl
  · exact hblank

/-- The global settings of a slice add one plain line at most. -/
theorem extends_addGlobals (current : Slice) (s : Score) :
    ∃ new, Extends new s (s.addGlobals current) ∧ ∀ l ∈ new, l.Plain := by
  have hkey : Extends [] s (s.changeKey current).2 := by
    have hrefl := Extends.refl s
    unfold changeKey
    split
    · exact hrefl
    · split
      · exact ⟨hrefl.lines, rfl, rfl, rfl, rfl, hrefl.cursor⟩
      · exact ⟨hrefl.lines, rfl, rfl, rfl, rfl, hrefl.cursor⟩
  simp only [addGlobals]
  split
  · exact ⟨[], hkey, by simp⟩
  · refine ⟨_, hkey.trans (Extends.addLine _ _), fun l hl => ?_⟩
    cases List.mem_singleton.mp hl
    exact ⟨rfl, rfl, rfl⟩

/-! ### Changes and chords -/

/-- A part is declared or selected for its channel, on a line of its own. -/
structure Switched (id : PartId) (s s' : Score) : Prop where
  lines : s'.lines.toList =
    s.lines.toList ++ [if id ∈ s.roster.ids then .select id else .declare id]
  ids : s'.roster.ids = if id ∈ s.roster.ids then s.roster.ids else s.roster.ids ++ [id]
  lanes : s'.lanes = s.lanes.set id.channel (some id) id.channel.isLt
  current : s'.current = some id
  slice : s'.slice = s.slice
  markers : s'.markers = s.markers
  cursor : ∀ id', (s'.part id').cursor = (s.part id').cursor

/-- A change of program switches to its part. -/
theorem switched_change (id : PartId) (s : Score) : Switched id s (s.change id) where
  lines := Array.toList_push
  ids := s.roster.ids_add id
  lanes := rfl
  current := rfl
  slice := rfl
  markers := rfl
  cursor id' := congrArg PartState.cursor (s.roster.state_add id id')

/-- The line by which a part is declared or selected marks no slice and jumps to none. -/
theorem quiet_switch (id : PartId) (s : Score) :
    ∀ l ∈ [if id ∈ s.roster.ids then Line.select id else .declare id],
      l.marks? = none ∧ l.jumps? = none := by
  intro l hl
  cases List.mem_singleton.mp hl
  split <;> exact ⟨rfl, rfl⟩

/-- A chord is written by a part: the part is selected, enters the chord with a jump if it is behind
the marker of the slice, and sounds it. -/
structure Chorded (p : Plan) (c : Chord) (id : PartId) (s selected entered s' : Score) : Prop where
  selects : Writes (partFor p c.channel.val c.channel c.tick)
    (s.countTones c.channel.val c.tick c.tones) id selected
  part : (s.current = some id ∧ s.lanes.get c.channel = some id ∧ Extends [] s selected) ∨
    (id = p.recording.partAt c.channel c.tick ∧ Switched id s selected)
  enters : ∃ gap, Writes (enter p c) s (id, c.jump? id selected, gap) entered
  approach : Extends [] selected entered
  landing : c.landing id selected ≤ (entered.part id).cursor
  line : ∃ line : ChordLine, line.jump = c.jump? id selected ∧ Extends [.chord line] entered s'
  current : s'.current = some id

end Score

/-- Counting notes adds no line, moves no part on and selects none. -/
theorem Score.extends_countTones (channel tick : Int) (tones : List Score.Tone) (s : Score) :
    Score.Extends [] s (s.countTones channel tick tones) ∧
      (s.countTones channel tick tones).roster = s.roster ∧
      (s.countTones channel tick tones).current = s.current := by
  have halters := Score.countTones_alters channel tick tones ⟨0, 0⟩ s
  have hroster := halters.roster.trans (Roster.modify_self rfl)
  refine ⟨⟨?_, halters.ids, halters.lanes, halters.slice, halters.markers, fun id => ?_⟩, hroster,
    halters.current⟩
  · rw [halters.lines, List.append_nil]
  · exact Int.le_of_eq (by rw [Score.part, Score.part, hroster])

/-- A jump does not move a part back. -/
theorem Chord.le_landing (c : Chord) (id : PartId) (s : Score) :
    (s.part id).cursor ≤ c.landing id s := by
  unfold Chord.landing
  split
  · omega
  · exact Int.le_refl _

/-- A chord that is sounded adds its line. -/
theorem Sounds.extends {p : Plan} {c : Chord} {id : PartId} {jump : Option Int}
    {gap : Option String} {s s' : Score} (h : Sounds p c id jump gap s s') :
    ∃ line : ChordLine, line.jump = jump ∧ Score.Extends [.chord line] s s' := by
  obtain ⟨attributes, hlines⟩ := h.line
  refine ⟨?line, ?jump, ?lines, h.ids, h.lanes, h.slice, h.markers, fun id' => ?_⟩
  case lines =>
    rw [hlines]
    exact Array.toList_push
  case jump => rfl
  by_cases hself : id' = id
  · rw [hself, h.cursor]
    omega
  · exact Int.le_of_eq (congrArg PartState.cursor (h.others id' hself).symm)

/-- A valid chord is written by one part. -/
theorem Agrees.chorded {p : Plan} {s s' : Score} {R : Reading} (h : Agrees p.tables s R)
    (hp : p.Proper) {c : Chord} (hc : c.Valid p.tables)
    (hwrite : Writes ((Action.chord c).write p) s () s') :
    ∃ id selected entered, Score.Chorded p c id s selected entered s' := by
  obtain ⟨hcounted, _⟩ := h.countTones c
  obtain ⟨hextends, hroster, hcurrent⟩ :=
    s.extends_countTones c.channel.val c.tick c.tones
  generalize hs₀ : s.countTones c.channel.val c.tick c.tones = s₀
    at hcounted hextends hroster hcurrent
  obtain ⟨id, selected, hselects, hpart⟩ := writes_partFor hp c.channel c.tick s₀
  have hselected : selected.current = some id ∧ id ∈ selected.roster.ids := by
    rcases hpart with ⟨rfl, hcurrent, hlane⟩ | ⟨_, rfl⟩
    · exact ⟨hcurrent, (hcounted.lanes _ id hlane).2⟩
    · exact ⟨rfl, (hcounted.change id).selected id rfl⟩
  obtain ⟨entered, henter, hentered⟩ := writes_enter (p := p) (c := c) (s := s)
    (by rw [hs₀]; exact hselects) hselected.2
  have htones : ∀ tone ∈ c.tones, tone.InRange := fun tone htone => (hc.fits tone htone).inRange
  obtain ⟨left, hsound, hsounds⟩ := writes_sound (p := p) htones (hentered.ids ▸ hselected.2)
    (c.jump? id selected) (p.tables.restText? (c.tick - c.landing id selected))
  obtain ⟨_, rfl⟩ := Writes.unique hwrite (writes_chord henter hsound)
  have hlanding : c.landing id selected ≤ (c.entering p.tables id selected).cursor := by
    rw [Chord.cursor_entering]
    exact Int.le_max_left _ _
  refine ⟨id, selected, entered, ?_⟩
  constructor
  case selects => rw [hs₀]; exact hselects
  case part =>
    rcases hpart with ⟨rfl, hcur, hlane⟩ | ⟨hpart, rfl⟩
    · exact .inl ⟨hcurrent ▸ hcur, hextends.lanes ▸ hlane, hextends⟩
    · have hswitched := Score.switched_change id s₀
      refine .inr ⟨hpart, ?_, ?_, ?_, rfl, hextends.slice, hextends.markers, fun id' => ?_⟩
      · rw [hswitched.lines, hextends.lines, hextends.ids, List.append_nil]
      · rw [hswitched.ids, hextends.ids]
      · rw [hswitched.lanes, hextends.lanes]
      · rw [hswitched.cursor, Score.part, hroster, Score.part]
  case enters => exact ⟨_, henter⟩
  case approach =>
    exact hentered.extends (Int.le_trans (c.le_landing id selected) hlanding)
  case landing => rw [hentered.part_self hselected.2]; exact hlanding
  case line => exact hsounds.extends
  case current => rw [hsounds.current, hentered.current, hselected.1]

end Transcription
