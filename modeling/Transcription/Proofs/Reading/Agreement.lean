import Transcription.Proofs.Reading.Music
import Transcription.Proofs.Reading.Text
import Transcription.Proofs.Score.Passage

/-!
# The reader agrees with the score

A reader who reads the lines of a score knows at every point what the next line depends on: the
declared parts in their order, the selected one, the key signature, the markers, and for each part
the octave and the length that its next note inherits. Every step of writing that adds lines keeps
this agreement.
-/

namespace Transcription

/-- A reader that has read all lines of a score and knows what the next line depends on. -/
structure Agrees (t : LengthTables) (s : Score) (R : Reading) : Prop where
  legible : ∀ l ∈ s.lines, l.Legible
  reads : Reading.ofLines? t s.lines = some R
  declared : R.declared = s.roster.ids
  current : R.current = s.current
  key : R.key = s.key
  octave : ∀ id, (R.voice id).octave = (s.part id).octave
  length : ∀ id, (R.voice id).length = (s.part id).length
  fresh : ∀ id, id ∉ s.roster.ids → R.voice id = {}
  marked : ∀ n, n ∈ s.markers ↔ (R.mark? n).isSome
  lanes : ∀ channel id, s.lanes.get channel = some id →
    id.channel = channel ∧ id ∈ s.roster.ids
  selected : ∀ id, s.current = some id → id ∈ s.roster.ids

/-! ### What a reader does -/

namespace Reading

/-- A part rests for a gap, as far as that can be written. -/
def rest (t : LengthTables) (id : PartId) (gap : Int) (R : Reading) : Reading :=
  R.update id { R.voice id with
    length := (t.restText? gap).getD (R.voice id).length
    position := (R.voice id).position + t.restTicks gap }

@[simp] theorem voice_update (R : Reading) (id id' : PartId) (v : Voice) :
    (R.update id v).voice id' = if id' = id then v else R.voice id' := rfl

/-- Changing a part to what it is changes nothing. -/
theorem update_self (R : Reading) (id : PartId) : R.update id (R.voice id) = R := by
  have hvoice : (fun id' => if id' = id then R.voice id else R.voice id') = R.voice := by
    funext id'
    by_cases h : id' = id <;> simp [h]
  simp [update, hvoice]

end Reading

namespace LengthTables

variable {t : LengthTables}

/-- The rest that is written for a gap is read back with its ticks. -/
theorem Proper.ticks?_restText (h : t.Proper) {gap : Int} {length : String}
    (htext : t.restText? gap = some length) :
    t.rests.ticks? length = some (t.restTicks gap) ∧ LengthTable.IsLength length := by
  unfold restText? at htext
  split at htext
  · cases htext
  · rename_i hgap
    rw [not_or] at hgap
    cases htext
    have hmem : ∀ e ∈ t.restSummands gap, e ∈ t.rests.entries := fun e he =>
      mem_of_mem_restSummands he
    rw [h.rests_ofLadder.ticks?_text hmem hgap.2, restTicks, if_neg hgap.1]
    exact ⟨rfl, h.rests_ofLadder.isLength_text hmem hgap.2⟩

/-- Nothing is rested for a gap that cannot be written. -/
theorem restTicks_of_restText?_eq_none {gap : Int} (htext : t.restText? gap = none) :
    t.restTicks gap = 0 := by
  unfold restText? at htext
  unfold restTicks
  split at htext
  · rename_i hgap
    rcases hgap with hgap | hgap
    · rw [if_pos hgap]
    · rw [hgap]
      simp
  · cases htext

end LengthTables

/-- A line with a rest, if there is one. -/
def Score.addRest (length : Option String) (s : Score) : Score :=
  match length with
  | some length => s.addLine (.rest length)
  | none => s

namespace Agrees

variable {t : LengthTables} {s s' : Score} {R R' : Reading}

/-- A reader agrees with the empty score before it has read anything. -/
theorem start (t : LengthTables) : Agrees t {} {} where
  legible := by simp
  reads := rfl
  declared := rfl
  current := rfl
  key := rfl
  octave _ := rfl
  length _ := rfl
  fresh _ _ := rfl
  marked n := by simp [Reading.mark?]
  lanes channel id h := by
    change (Vector.replicate channelCount (none : Option PartId))[channel.val] = some id at h
    rw [Vector.getElem_replicate] at h
    cases h
  selected id h := by cases h

/-- One more legible line is read. -/
theorem push (h : Agrees t s R) {line : Line} (hlegible : line.Legible)
    (hline : R.line? t line = some R') :
    (∀ l ∈ s.lines.push line, l.Legible) ∧
      Reading.ofLines? t (s.lines.push line) = some R' := by
  constructor
  · intro l hl
    rcases Array.mem_push.mp hl with hl | rfl
    · exact h.legible l hl
    · exact hlegible
  · rw [Reading.ofLines?_push, h.reads]
    exact hline

/-- Steps that only count and notice keep the agreement. -/
theorem congr (h : Agrees t s R) (hlines : s'.lines = s.lines) (hroster : s'.roster = s.roster)
    (hlanes : s'.lanes = s.lanes) (hcurrent : s'.current = s.current) (hkey : s'.key = s.key)
    (hmarkers : s'.markers = s.markers) : Agrees t s' R where
  legible := hlines ▸ h.legible
  reads := hlines ▸ h.reads
  declared := hroster ▸ h.declared
  current := hcurrent ▸ h.current
  key := hkey ▸ h.key
  octave id := by rw [h.octave, Score.part, Score.part, hroster]
  length id := by rw [h.length, Score.part, Score.part, hroster]
  fresh := hroster ▸ h.fresh
  marked := hmarkers ▸ h.marked
  lanes channel id := by
    rw [hlanes, hroster]
    exact h.lanes channel id
  selected id := by
    rw [hcurrent, hroster]
    exact h.selected id

/-- Lines that say nothing about music keep the agreement. -/
theorem addSilent (h : Agrees t s R) {line : Line} (hlegible : line.Legible)
    (hline : R.line? t line = some R) : Agrees t (s.addLine line) R where
  legible := (h.push hlegible hline).1
  reads := (h.push hlegible hline).2
  declared := h.declared
  current := h.current
  key := h.key
  octave := h.octave
  length := h.length
  fresh := h.fresh
  marked := h.marked
  lanes := h.lanes
  selected := h.selected

/-- A declared part is selected. -/
theorem select (h : Agrees t s R) {id : PartId} (hid : id ∈ s.roster.ids) :
    Agrees t (s.select id) { R with current := some id } := by
  unfold Score.select
  split
  · rename_i hcurrent
    have hsame : { R with current := some id } = R := by rw [← hcurrent, ← h.current]
    rw [hsame]
    exact h
  · have hline : R.line? t (.select id) = some { R with current := some id } := by
      rw [Reading.line?, h.declared, if_pos hid]
    have hlegible : (Line.select id).Legible := trivial
    exact
      { legible := (h.push hlegible hline).1
        reads := (h.push hlegible hline).2
        declared := h.declared
        current := rfl
        key := h.key
        octave := h.octave
        length := h.length
        fresh := h.fresh
        marked := h.marked
        lanes := h.lanes
        selected := fun id' hid' => Option.some.inj hid' ▸ hid }

/-- A change of a part that its next note does not notice keeps the agreement. -/
theorem alter (h : Agrees t s R) {id : PartId} {part : PartState} {n : Int}
    (halters : Score.Alters id part n s s') (hid : id ∈ s.roster.ids)
    (hoctave : part.octave = (s.part id).octave) (hlength : part.length = (s.part id).length) :
    Agrees t s' R where
  legible := halters.lines ▸ h.legible
  reads := halters.lines ▸ h.reads
  declared := halters.ids ▸ h.declared
  current := halters.current ▸ h.current
  key := halters.key ▸ h.key
  octave id' := by
    rw [halters.part_eq hid, h.octave]
    split
    · rename_i heq
      rw [heq, hoctave]
    · rfl
  length id' := by
    rw [halters.part_eq hid, h.length]
    split
    · rename_i heq
      rw [heq, hlength]
    · rfl
  fresh := halters.ids ▸ h.fresh
  marked := halters.markers ▸ h.marked
  lanes channel id' := by
    rw [halters.lanes, halters.ids]
    exact h.lanes channel id'
  selected id' := by
    rw [halters.current, halters.ids]
    exact h.selected id'

/-- A line of music of a declared part keeps the agreement if reading it changes the octave and the
length of this part as writing it does. -/
theorem sing (h : Agrees t s R) {id : PartId} {line : Line} {voice : Voice} {heard : List Heard}
    (hid : id ∈ s.roster.ids) (hlegible : line.Legible)
    (hline : R.line? t line = some { R.update id voice with heard })
    (hlines : s'.lines = s.lines.push line) (hids : s'.roster.ids = s.roster.ids)
    (hlanes : s'.lanes = s.lanes) (hcurrent : s'.current = s.current) (hkey : s'.key = s.key)
    (hmarkers : s'.markers = s.markers) (hothers : ∀ id', id' ≠ id → s'.part id' = s.part id')
    (hoctave : voice.octave = (s'.part id).octave)
    (hlength : voice.length = (s'.part id).length) :
    Agrees t s' { R.update id voice with heard } where
  legible := hlines ▸ (h.push hlegible hline).1
  reads := hlines ▸ (h.push hlegible hline).2
  declared := hids ▸ h.declared
  current := hcurrent ▸ h.current
  key := hkey ▸ h.key
  octave id' := by
    change ((R.update id voice).voice id').octave = _
    rw [Reading.voice_update]
    split
    · rename_i heq
      rw [heq, hoctave]
    · rename_i hne
      rw [hothers id' hne, h.octave]
  length id' := by
    change ((R.update id voice).voice id').length = _
    rw [Reading.voice_update]
    split
    · rename_i heq
      rw [heq, hlength]
    · rename_i hne
      rw [hothers id' hne, h.length]
  fresh id' hnew := by
    change (R.update id voice).voice id' = {}
    rw [hids] at hnew
    have hne : id' ≠ id := by
      rintro rfl
      exact hnew hid
    rw [Reading.voice_update, if_neg hne]
    exact h.fresh id' hnew
  marked := hmarkers ▸ h.marked
  lanes channel id' := by
    rw [hlanes, hids]
    exact h.lanes channel id'
  selected id' := by
    rw [hcurrent, hids]
    exact h.selected id'

/-- The selected part rests for a gap on a line of its own, if the gap can be written. -/
theorem addRest (h : Agrees t s R) (ht : t.Proper) {id : PartId} (hcurrent : s.current = some id)
    {gap n : Int} {part : PartState} (halters : Score.Alters id part n s s')
    (hoctave : part.octave = (s.part id).octave)
    (hlength : part.length = ((s.part id).resting t gap).length) :
    Agrees t (s'.addRest (t.restText? gap)) (R.rest t id gap) := by
  have hid := h.selected id hcurrent
  have hpart := halters.part_self hid
  unfold PartState.resting at hlength
  cases htext : t.restText? gap with
  | none =>
    have hsame : R.rest t id gap = R := by
      simp only [Reading.rest, htext, LengthTables.restTicks_of_restText?_eq_none htext,
        Option.getD_none, Int.add_zero]
      exact R.update_self id
    rw [htext] at hlength
    rw [hsame]
    exact h.alter halters hid hoctave hlength
  | some length =>
    obtain ⟨hticks, hislength⟩ := ht.ticks?_restText htext
    rw [htext] at hlength
    have hlegible : (Line.rest length).Legible := hislength
    have hline : R.line? t (.rest length) = some (R.rest t id gap) := by
      simp [Reading.line?, h.current, hcurrent, Voice.rest?, hticks, Reading.rest, htext]
    have hlines : (s'.addLine (.rest length)).lines = s.lines.push (.rest length) :=
      congrArg (fun l => l.push (Line.rest length)) halters.lines
    exact h.sing hid hlegible hline hlines halters.ids halters.lanes halters.current halters.key
      halters.markers (fun id' hne => (halters.part_eq hid id').trans (if_neg hne))
      (by rw [h.octave, ← hoctave, ← hpart]; rfl)
      (by rw [htext]; exact hlength.symm.trans (congrArg PartState.length hpart.symm))

/-- The begin of a slice is marked on the selected part. -/
theorem mark (h : Agrees t s R) {id : PartId} (hcurrent : s.current = some id) {number : Int}
    (hnumber : s.slice = number) :
    Agrees t
      { s.addLine (.marker number) with
        markers := if s.slice ∈ s.markers then s.markers else s.markers ++ [s.slice] }
      { R with marks := (number, (R.voice id).position) :: R.marks } := by
  subst hnumber
  have hlegible : (Line.marker s.slice).Legible := trivial
  have hline : R.line? t (.marker s.slice) =
      some { R with marks := (s.slice, (R.voice id).position) :: R.marks } := by
    simp [Reading.line?, h.current, hcurrent]
  refine ⟨(h.push hlegible hline).1, (h.push hlegible hline).2, h.declared, h.current, h.key,
    h.octave, h.length, h.fresh, fun n => ?_, h.lanes, h.selected⟩
  have hn := h.marked n
  unfold Reading.mark? at hn ⊢
  by_cases heq : s.slice = n
  · subst heq
    by_cases hmem : s.slice ∈ s.markers <;> simp [hmem]
  · rw [List.find?_cons_of_neg (by simpa using heq), ← hn]
    by_cases hmem : s.slice ∈ s.markers <;> simp [hmem, Ne.symm heq]

/-- Another key comes into force. -/
theorem setKey (h : Agrees t s R) {settings : List GlobalSetting} (hsettings : IsGlobals settings)
    (key : KeySignature) (hkey : R.settings settings = { R with key }) :
    Agrees t ({ s with key }.addLine (.globals settings)) { R with key } := by
  have hlegible : (Line.globals settings).Legible := hsettings
  have hline : R.line? t (.globals settings) = some { R with key } := congrArg some hkey
  exact ⟨(h.push hlegible hline).1, (h.push hlegible hline).2, h.declared, h.current, rfl,
    h.octave, h.length, h.fresh, h.marked, h.lanes, h.selected⟩

/-- A part is declared or selected for its channel. -/
theorem change (h : Agrees t s R) (id : PartId) :
    Agrees t (s.change id)
      { R with declared := (s.roster.add id).ids, current := some id } := by
  have hids : id ∈ (s.roster.add id).ids := by
    rw [Roster.ids_add]
    split
    · assumption
    · exact List.mem_append_right _ List.mem_cons_self
  have hsubset {id' : PartId} (h : id' ∈ s.roster.ids) : id' ∈ (s.roster.add id).ids := by
    rw [Roster.ids_add]
    split
    · exact h
    · exact List.mem_append_left _ h
  have hpart (id' : PartId) : (s.change id).part id' = s.part id' := s.roster.state_add id id'
  have hread : (if id ∈ s.roster.ids then Line.select id else .declare id).Legible ∧
      R.line? t (if id ∈ s.roster.ids then .select id else .declare id) =
        some { R with declared := (s.roster.add id).ids, current := some id } := by
    by_cases hold : id ∈ s.roster.ids
    · rw [if_pos hold, Reading.line?, h.declared, if_pos hold, Roster.ids_add, if_pos hold,
        ← h.declared]
      exact ⟨trivial, rfl⟩
    · have hvoice : R.update id {} = R := by
        rw [← h.fresh id hold]
        exact R.update_self id
      rw [if_neg hold, Reading.line?, h.declared, if_neg hold, Roster.ids_add, if_neg hold, hvoice]
      exact ⟨trivial, rfl⟩
  obtain ⟨hlegible, hline⟩ := hread
  exact
    { legible := (h.push hlegible hline).1
      reads := (h.push hlegible hline).2
      declared := rfl
      current := rfl
      key := h.key
      octave := fun id' => by rw [hpart, ← h.octave]
      length := fun id' => by rw [hpart, ← h.length]
      fresh := fun id' hnew => h.fresh id' (fun hold => hnew (hsubset hold))
      marked := h.marked
      lanes := fun channel id' hlane => by
        change (s.lanes.set id.channel (some id))[channel] = some id' at hlane
        rw [Fin.getElem_fin, Vector.getElem_set] at hlane
        split at hlane
        · rename_i heq
          cases hlane
          exact ⟨Fin.ext heq, hids⟩
        · obtain ⟨hchannel, hold⟩ := h.lanes channel id' hlane
          exact ⟨hchannel, hsubset hold⟩
      selected := fun id' hid' => Option.some.inj hid' ▸ hids }

end Agrees

end Transcription
