import Transcription.Proofs.Reading.Agreement

/-!
# How far the parts have come

A part counts the ticks it has reached in its cursor, and a reader of the score counts the ticks
that were written for it. Both counts are known after each step: the begin of a slice may bring one
part up to its tick by a rest and mark the place, and steps without music move nobody.
-/

namespace Transcription

/-- How far a part has come, in its own count and in the text. -/
structure Clock where
  /-- The tick that the part takes itself to have reached. -/
  cursor : Int
  /-- The ticks that were written for the part. -/
  position : Int

namespace Clock

/-- A part rests up to a tick, unless it is further on. -/
def restTo (t : LengthTables) (tick : Int) (k : Clock) : Clock :=
  if k.cursor < tick then ⟨tick, k.position + t.restTicks (tick - k.cursor)⟩ else k

/-- A part jumps to the marker of a slice if there is one, unless it is further on. -/
def jumpTo (start : Int) (mark : Option Int) (k : Clock) : Clock :=
  match mark with
  | none => k
  | some position => if k.cursor < start then ⟨start, position⟩ else k

/-- After a rest up to a tick the cursor is there, or further on. -/
theorem cursor_restTo (t : LengthTables) (tick : Int) (k : Clock) :
    (k.restTo t tick).cursor = max k.cursor tick := by
  unfold restTo
  split
  · simp only
    omega
  · omega

/-- A rest up to a tick takes up what can be written of the gap. -/
theorem position_restTo (t : LengthTables) (tick : Int) (k : Clock) :
    (k.restTo t tick).position = k.position + t.restTicks (tick - k.cursor) := by
  unfold restTo
  split
  · rfl
  · rw [LengthTables.restTicks, if_pos (by omega), Int.add_zero]

end Clock

/-- How far a part has come in a score and its reading. -/
def clock (s : Score) (R : Reading) (id : PartId) : Clock :=
  ⟨(s.part id).cursor, (R.voice id).position⟩

/-- A step that moves nobody. -/
structure Still (s : Score) (R : Reading) (s' : Score) (R' : Reading) : Prop where
  slice : s'.slice = s.slice
  tries : s'.tries = s.tries
  heard : R'.heard = R.heard
  marks : ∀ n, R'.mark? n = R.mark? n
  clocks : ∀ id, clock s' R' id = clock s R id

/-- A slice is begun under a number. For all slices but the first one, a part may rest up to the
begin, and a part that is there may mark it. -/
structure Begins (t : LengthTables) (start number : Int) (s : Score) (R : Reading) (s' : Score)
    (R' : Reading) : Prop where
  slice : s'.slice = number
  tries : s.tries ≤ s'.tries
  heard : R'.heard = R.heard
  marks : ∀ n, R'.mark? n = R.mark? n ∨
    0 < number ∧ n = number ∧
      ∃ id, (clock s' R' id).cursor = start ∧ R'.mark? n = some (clock s' R' id).position
  clocks : ∀ id, clock s' R' id = clock s R id ∨
    0 < number ∧ (clock s R id).cursor < start ∧
      clock s' R' id = (clock s R id).restTo t start ∧ s'.tries = s.tries + 1

variable {t : LengthTables} {p : Plan} {s s' s'' : Score} {R R' R'' : Reading}

namespace Still

/-- Nothing happens. -/
theorem refl (s : Score) (R : Reading) : Still s R s R :=
  ⟨rfl, rfl, rfl, fun _ => rfl, fun _ => rfl⟩

/-- Two steps that move nobody. -/
theorem trans (h : Still s R s' R') (h' : Still s' R' s'' R'') : Still s R s'' R'' :=
  ⟨h'.slice.trans h.slice, h'.tries.trans h.tries, h'.heard.trans h.heard,
    fun n => (h'.marks n).trans (h.marks n), fun id => (h'.clocks id).trans (h.clocks id)⟩

/-- Selecting a part moves nobody. -/
theorem select (s : Score) (R : Reading) (id : PartId) :
    Still s R (s.select id) { R with current := some id } := by
  unfold Score.select
  split <;> exact ⟨rfl, rfl, rfl, fun _ => rfl, fun _ => rfl⟩

end Still

/-- A slice that is begun is still begun after a step that moves nobody. -/
theorem Begins.still {start number : Int} (h : Begins t start number s R s' R')
    (h' : Still s' R' s'' R'') : Begins t start number s R s'' R'' where
  slice := h'.slice.trans h.slice
  tries := h'.tries ▸ h.tries
  heard := h'.heard.trans h.heard
  marks n := by
    rw [h'.marks n]
    rcases h.marks n with hold | ⟨hpos, rfl, id, hcursor, hmark⟩
    · exact .inl hold
    · rw [← h'.clocks id] at hcursor hmark
      exact .inr ⟨hpos, rfl, id, hcursor, hmark⟩
  clocks id := by
    rw [h'.clocks id, h'.tries]
    exact h.clocks id

/-! ### The begin of a slice -/

/-- A part rests up to a tick on a line of its own. -/
def Score.restLine (p : Plan) (id : PartId) (tick : Int) (s : Score) : Score :=
  let cursor := (s.part id).cursor
  let rested := (s.select id).rest p id (tick - cursor) cursor
  (rested.2.addRest rested.1).advance id tick

/-- A line that is read without an effect moves nobody. -/
theorem Still.addLine {s : Score} (line : Line) (R : Reading) : Still s R (s.addLine line) R :=
  ⟨rfl, rfl, rfl, fun _ => rfl, fun _ => rfl⟩

/-- The line of a rest moves nobody. -/
theorem Still.addRest (s : Score) (R : Reading) (length : Option String) :
    Still s R (s.addRest length) R := by
  cases length with
  | none => exact Still.refl s R
  | some length => exact Still.addLine (.rest length) R

/-- It does not matter whether the line of a rest is added before or after an advance. -/
theorem Score.advance_addRest (s : Score) (length : Option String) (id : PartId) (tick : Int) :
    (s.addRest length).advance id tick = (s.advance id tick).addRest length := by
  cases length <;> rfl

/-- Before a slice the part that is furthest along rests up to the begin, unless it is there. -/
theorem Score.restBeforeSlice_eq (p : Plan) (current : Slice) {s : Score}
    {e : PartId × PartState} (hfurthest : s.roster.furthest? = some e) :
    s.restBeforeSlice p current =
      if current.beginTick ≤ e.2.cursor then s else s.restLine p e.1 current.beginTick := by
  have hcursor : (s.part e.1).cursor = e.2.cursor :=
    congrArg PartState.cursor (Roster.mem_of_furthest? hfurthest).2
  unfold restBeforeSlice
  simp only [hfurthest, restLine, hcursor]
  rfl

/-- Before a slice, a part rests up to the begin of the slice, or nothing happens. -/
theorem Score.restBeforeSlice_cases (p : Plan) (current : Slice) (s : Score) :
    s.restBeforeSlice p current = s ∨
      ∃ id ∈ s.roster.ids, (s.part id).cursor < current.beginTick ∧
        s.restBeforeSlice p current = s.restLine p id current.beginTick := by
  cases hfurthest : s.roster.furthest? with
  | none => exact .inl (by simp [restBeforeSlice, hfurthest])
  | some e =>
    obtain ⟨hid, hpart⟩ := Roster.mem_of_furthest? hfurthest
    have hcursor : (s.part e.1).cursor = e.2.cursor := congrArg PartState.cursor hpart
    have heq := restBeforeSlice_eq p current hfurthest
    by_cases hthere : current.beginTick ≤ e.2.cursor
    · exact .inl (heq.trans (if_pos hthere))
    · exact .inr ⟨e.1, hid, by omega, heq.trans (if_neg hthere)⟩

/-- The begin of a slice up to the empty line after its marker. -/
def Score.announceSlice (p : Plan) (current : Slice) (number : Int) (s : Score) : Score :=
  let s := { s with slice := number }
  if 0 < number then (s.restBeforeSlice p current).mark current else s

/-- After the begin of a slice come an empty line and its comment, if comments are wanted. -/
theorem Score.beginSlice_eq (p : Plan) (current : Slice) (number : Int) (s : Score) :
    s.beginSlice p current number =
      if p.settings.sliceComments then
        ((s.announceSlice p current number).addLine .blank).addLine (.comment number)
      else (s.announceSlice p current number).addLine .blank := rfl

namespace Agrees

/-- A part that rests up to a tick gets there, in the text as far as the rest can be written. -/
theorem restLine (h : Agrees p.tables s R) (hp : p.Proper) {id : PartId} (hid : id ∈ s.roster.ids)
    {tick : Int} (hlt : (s.part id).cursor < tick) :
    ∃ R', Agrees p.tables (s.restLine p id tick) R' ∧
      (s.restLine p id tick).slice = s.slice ∧ (s.restLine p id tick).tries = s.tries + 1 ∧
      R'.heard = R.heard ∧ R'.marks = R.marks ∧
      ∀ id', clock (s.restLine p id tick) R' id' =
        if id' = id then (clock s R id).restTo p.tables tick else clock s R id' := by
  have hstill := Still.select s R id
  have hid₁ : id ∈ (s.select id).roster.ids := by rwa [Score.roster_select]
  have hpart : (s.select id).part = s.part := by
    funext id'
    rw [Score.part, Score.roster_select, Score.part]
  obtain ⟨htext, hrest⟩ :=
    Score.rest_alters p id (tick - (s.part id).cursor) (s.part id).cursor (s.select id)
  rw [if_pos (by omega)] at hrest
  generalize hstep : (s.select id).rest p id (tick - (s.part id).cursor) (s.part id).cursor = x
    at htext hrest
  obtain ⟨text, s₁⟩ := x
  have hadvance := Score.advance_alters id tick s₁
  rw [hrest.part_self hid₁] at hadvance
  have hall := hrest.trans hadvance
  have hagrees := (h.select hid).addRest hp.tables (Score.current_select s id) hall
    (PartState.octave_advanceTo _ _) (PartState.length_advanceTo _ _)
  rw [← htext, ← Score.advance_addRest] at hagrees
  have hadd := Still.addRest (s₁.advance id tick) R text
  rw [← Score.advance_addRest] at hadd
  simp only [Score.restLine, hstep]
  refine ⟨_, hagrees, ?_, ?_, rfl, rfl, fun id' => ?_⟩
  · rw [hadd.slice, hall.slice, hstill.slice]
  · rw [hadd.tries, hall.tries, hstill.tries, Int.add_zero]
  · have hcursor := congrArg Clock.cursor (hadd.clocks id')
    simp only [clock] at hcursor
    unfold clock Clock.restTo Reading.rest
    rw [hcursor, hall.part_eq hid₁, Reading.voice_update, hpart]
    by_cases heq : id' = id
    · simp only [heq, if_true, hlt, PartState.cursor_advanceTo, PartState.resting]
      congr 1
      omega
    · simp only [heq, if_false]

/-- Before a slice, one part at most rests, up to the begin of the slice. -/
theorem restBeforeSlice (h : Agrees p.tables s R) (hp : p.Proper) (current : Slice)
    (hslice : 0 < s.slice) :
    ∃ R', Agrees p.tables (s.restBeforeSlice p current) R' ∧
      Begins p.tables current.beginTick s.slice s R (s.restBeforeSlice p current) R' := by
  rcases s.restBeforeSlice_cases p current with heq | ⟨id, hid, hlt, heq⟩
  · rw [heq]
    exact ⟨R, h, rfl, Int.le_refl _, rfl, fun _ => .inl rfl, fun _ => .inl rfl⟩
  · obtain ⟨R', hagrees, hnumber, htries, hheard, hmarks, hclocks⟩ := h.restLine hp hid hlt
    rw [heq]
    refine ⟨R', hagrees, hnumber, by omega, hheard, fun n => .inl ?_, fun id' => ?_⟩
    · rw [Reading.mark?, Reading.mark?, hmarks]
    · rw [hclocks]
      by_cases hself : id' = id
      · rw [if_pos hself, hself]
        exact .inr ⟨hslice, hlt, rfl, htries⟩
      · rw [if_neg hself]
        exact .inl rfl

/-- A marker is set on a part that has come to the begin of the slice, or there is none. -/
theorem markSlice (h : Agrees t s R) (current : Slice) :
    ∃ R', Agrees t (s.mark current) R' ∧ (s.mark current).slice = s.slice ∧
      (s.mark current).tries = s.tries ∧ R'.heard = R.heard ∧
      (∀ id, clock (s.mark current) R' id = clock s R id) ∧
      ∀ n, R'.mark? n = R.mark? n ∨
        n = s.slice ∧ ∃ id, (clock s R id).cursor = current.beginTick ∧
          R'.mark? n = some (clock s R id).position := by
  have hnotice (notice : Notice) : Agrees t (s.addNotice notice) R :=
    h.congr rfl rfl rfl rfl rfl rfl
  unfold Score.mark
  cases hfurthest : s.roster.furthest? with
  | none => exact ⟨R, hnotice _, rfl, rfl, rfl, fun _ => rfl, fun _ => .inl rfl⟩
  | some e =>
    obtain ⟨hid, hpart⟩ := Roster.mem_of_furthest? hfurthest
    have hcursor : (clock s R e.1).cursor = e.2.cursor := congrArg PartState.cursor hpart
    by_cases hthere : e.2.cursor = current.beginTick
    · simp only [hthere, if_true]
      have hstill := Still.select s R e.1
      have hmark := (h.select hid).mark (Score.current_select s e.1) hstill.slice
      refine ⟨_, hmark, hstill.slice, hstill.tries, rfl, hstill.clocks, fun n => ?_⟩
      by_cases hn : s.slice = n
      · refine .inr ⟨hn.symm, e.1, hcursor.trans hthere, ?_⟩
        simp [Reading.mark?, hn, clock]
      · refine .inl ?_
        simp [Reading.mark?, hn]
    · simp only [hthere, if_false]
      exact ⟨R, hnotice _, rfl, rfl, rfl, fun _ => rfl, fun _ => .inl rfl⟩

/-- A slice other than the first one is marked after a rest, and the first one is not. -/
theorem announceSlice (h : Agrees p.tables s R) (hp : p.Proper) (current : Slice) (number : Int) :
    ∃ R', Agrees p.tables (s.announceSlice p current number) R' ∧
      Begins p.tables current.beginTick number s R (s.announceSlice p current number) R' := by
  have hnumber : Agrees p.tables { s with slice := number } R := h.congr rfl rfl rfl rfl rfl rfl
  unfold Score.announceSlice
  by_cases hpos : 0 < number
  · obtain ⟨R₁, hagrees, hbegins⟩ := hnumber.restBeforeSlice hp current hpos
    obtain ⟨R₂, hagrees₂, hslice, htries, hheard, hclocks, hmarks⟩ := hagrees.markSlice current
    simp only [hpos, if_true]
    refine ⟨R₂, hagrees₂, hslice.trans hbegins.slice, htries ▸ hbegins.tries,
      hheard.trans hbegins.heard, fun n => ?_, fun id => ?_⟩
    · rcases hmarks n with hold | ⟨hn, id, hcursor, hposition⟩
      · rcases hbegins.marks n with hold' | ⟨_, hn, id, hcursor, hposition⟩
        · exact .inl (hold.trans hold')
        · refine .inr ⟨hpos, hn, id, ?_⟩
          rw [hclocks id, hold]
          exact ⟨hcursor, hposition⟩
      · refine .inr ⟨hpos, hn.trans hbegins.slice, id, ?_⟩
        rw [hclocks id]
        exact ⟨hcursor, hposition⟩
    · rw [hclocks id, htries]
      exact hbegins.clocks id
  · simp only [hpos, if_false]
    exact ⟨R, hnumber, rfl, Int.le_refl _, rfl, fun _ => .inl rfl, fun _ => .inl rfl⟩

/-- A slice is begun. -/
theorem beginSlice (h : Agrees p.tables s R) (hp : p.Proper) (current : Slice) (number : Int) :
    ∃ R', Agrees p.tables (s.beginSlice p current number) R' ∧
      Begins p.tables current.beginTick number s R (s.beginSlice p current number) R' := by
  obtain ⟨R', hagrees, hbegins⟩ := h.announceSlice hp current number
  have hblank : Agrees p.tables ((s.announceSlice p current number).addLine .blank) R' :=
    hagrees.addSilent trivial rfl
  have hbegins := hbegins.still (Still.addLine .blank R')
  rw [Score.beginSlice_eq]
  split
  · exact ⟨R', hblank.addSilent trivial rfl, hbegins.still (Still.addLine (.comment number) R')⟩
  · exact ⟨R', hblank, hbegins⟩

/-! ### Steps that move nobody -/

/-- Putting the key of a slice in force gives it back as a setting, unless there is no valid key. -/
theorem changeKey (h : Agrees t s R) (current : Slice) :
    (∃ key, s.changeKey current = ([.key key], { s with key })) ∨
      ∃ s', s.changeKey current = ([], s') ∧ Agrees t s' R ∧ Still s R s' R := by
  cases hget : current.globals.get? keyCommand with
  | none =>
    refine .inr ⟨s, ?_, h, Still.refl s R⟩
    simp [Score.changeKey, hget]
  | some text =>
    cases hread : KeySignature.read text with
    | ok key =>
      refine .inl ⟨key, ?_⟩
      simp [Score.changeKey, hget, hread]
    | error e =>
      have hwarn : Agrees t (s.warn (s.keyWarning e current.beginTick)) R :=
        h.congr rfl rfl rfl rfl rfl rfl
      refine .inr ⟨_, ?_, hwarn, rfl, rfl, rfl, fun _ => rfl, fun _ => rfl⟩
      simp [Score.changeKey, hget, hread]

/-- The global settings of a slice move nobody. -/
theorem addGlobals (h : Agrees t s R) (current : Slice) :
    ∃ R', Agrees t (s.addGlobals current) R' ∧ Still s R (s.addGlobals current) R' := by
  have htempo : Score.tempoSetting current = [] ∨
      ∃ text, Score.tempoSetting current = [.tempo text] := by
    unfold Score.tempoSetting
    cases current.globals.get? tempoCommand <;> simp
  unfold Score.addGlobals
  rcases h.changeKey current with ⟨key, hkey⟩ | ⟨s', hkey, hagrees, hstill⟩
  · simp only [hkey]
    rcases htempo with hnone | ⟨text, htext⟩
    · simp only [hnone, List.append_nil, List.cons_ne_nil, if_false]
      exact ⟨_, h.setKey (.inl ⟨key, rfl⟩) key rfl, rfl, rfl, rfl, fun _ => rfl, fun _ => rfl⟩
    · simp only [htext, List.cons_append, List.nil_append, List.cons_ne_nil, if_false]
      exact ⟨_, h.setKey (.inr (.inr ⟨key, text, rfl⟩)) key rfl, rfl, rfl, rfl, fun _ => rfl,
        fun _ => rfl⟩
  · simp only [hkey]
    rcases htempo with hnone | ⟨text, htext⟩
    · simp only [hnone, List.append_nil, if_true]
      exact ⟨R, hagrees, hstill⟩
    · simp only [htext, List.nil_append, List.cons_ne_nil, if_false]
      exact ⟨R, hagrees.addSilent (.inr (.inl ⟨text, rfl⟩)) rfl, hstill.trans (Still.addLine _ R)⟩

/-- Declaring or selecting a part for its channel moves nobody. -/
theorem still_change (s : Score) (R : Reading) (id : PartId) :
    Still s R (s.change id) { R with declared := (s.roster.add id).ids, current := some id } := by
  refine ⟨rfl, rfl, rfl, fun _ => rfl, fun id' => ?_⟩
  have hpart : (s.change id).part id' = s.part id' := s.roster.state_add id id'
  rw [clock, clock, hpart]

end Agrees

end Transcription
