import Transcription.Proofs.Score.Action
import Transcription.Proofs.Score.Frame

/-!
# The passage of a part through a chord

A part enters a chord: it is declared or selected, jumps to the marker of the slice and rests up to
the chord. Then it sounds the chord and leaves it. Both halves succeed for notes in range, and the
state in which the part leaves is known from the state in which it came.
-/

namespace Transcription

namespace Writing

variable {α β : Type} {s s' s'' : Score}

/-- A step that goes from one score to another and gives something back. -/
def Writes (m : Writing α) (s : Score) (a : α) (s' : Score) : Prop := m.run s = .ok a s'

namespace Writes

/-- A step gives one result only. -/
theorem unique {m : Writing α} {a a' : α} (h : Writes m s a s') (h' : Writes m s a' s'') :
    a = a' ∧ s' = s'' := by
  have heq : EStateM.Result.ok a s' = (EStateM.Result.ok a' s'' : EStateM.Result Failure Score α) :=
    h.symm.trans h'
  exact ⟨(EStateM.Result.ok.inj heq).1, (EStateM.Result.ok.inj heq).2⟩

/-- Nothing happens. -/
protected theorem pure (a : α) (s : Score) : Writes (pure a : Writing α) s a s := rfl

/-- Two steps, one after the other. -/
theorem bind {m : Writing α} {f : α → Writing β} {a : α} {b : β} (hm : Writes m s a s')
    (hf : Writes (f a) s' b s'') : Writes (m >>= f) s b s'' := by
  change EStateM.bind m f s = _
  have hrun : m s = .ok a s' := hm
  rw [EStateM.bind, hrun]
  exact hf

/-- Of two steps that succeed one after the other, both do. -/
theorem exists_bind {m : Writing α} {f : α → Writing β} {b : β}
    (h : Writes (m >>= f) s b s'') : ∃ a s', Writes m s a s' ∧ Writes (f a) s' b s'' := by
  have hrun : EStateM.bind m f s = .ok b s'' := h
  unfold EStateM.bind at hrun
  cases hm : m s with
  | ok a s' =>
    rw [hm] at hrun
    exact ⟨a, s', hm, hrun⟩
  | error e s' =>
    rw [hm] at hrun
    cases hrun

/-- A step that cannot fail. -/
theorem of (f : Score → α × Score) (s : Score) : Writes (Writing.of f) s (f s).1 (f s).2 := rfl

/-- A step that cannot fail and gives nothing back. -/
theorem act (f : Score → Score) (s : Score) : Writes (Writing.act f) s () (f s) := rfl

/-- A computation that succeeds. -/
theorem lift {x : Except Failure α} {a : α} (h : x = .ok a) (s : Score) :
    Writes (Writing.lift x) s a s := by
  subst h
  rfl

/-- A step that may fail and does not. -/
theorem check {f : Score → Except Failure (α × Score)} {a : α} (h : f s = .ok (a, s')) :
    Writes (Writing.check f) s a s' := by
  have hset : Writes (set s' : Writing PUnit) s ⟨⟩ s' := rfl
  exact Writes.bind (a := s) rfl (Writes.bind (Writes.lift h s) (Writes.bind hset rfl))

/-- A computation that succeeds as a step has succeeded. -/
theorem of_lift {x : Except Failure α} {a : α} (h : Writes (Writing.lift x) s a s') :
    x = .ok a ∧ s = s' := by
  cases x with
  | ok a' =>
    cases h
    exact ⟨rfl, rfl⟩
  | error e => cases h

/-- A checked step that succeeds has succeeded. -/
theorem of_check {f : Score → Except Failure (α × Score)} {a : α}
    (h : Writes (Writing.check f) s a s') : f s = .ok (a, s') := by
  obtain ⟨_, _, ⟨⟩, h⟩ := h.exists_bind
  obtain ⟨found, s₁, hlift, h⟩ := h.exists_bind
  obtain ⟨hf, rfl⟩ := hlift.of_lift
  obtain ⟨_, _, ⟨⟩, ⟨⟩⟩ := h.exists_bind
  exact hf

end Writes

/-! ### Entering a chord -/

/-- Enter a chord: count its notes, and bring the part of its channel there by a jump and a rest. -/
def enter (p : Plan) (c : Chord) : Writing (PartId × Option Int × Option String) := do
  act (Score.countTones c.channel.val c.tick c.tones)
  let id ← partFor p c.channel.val c.channel c.tick
  let jump ← of (Score.jump c.slice id)
  let gap ← of (Score.restUpTo p id c.tick)
  return (id, jump, gap)

/-- Sound a chord that has been entered, and leave it. -/
def sound (p : Plan) (c : Chord) (id : PartId) (jump : Option Int) (gap : Option String) :
    Writing Unit := do
  let attributes ← attributes p id c.tones
  let notes ← c.tones.mapM (note id)
  let noteEnd := Score.chordEnd c.tones
  let (rests, chordEnd) ←
    of (Score.restInChord p id c.tick (Score.cut c.next c.slice.endTick noteEnd) noteEnd)
  act fun s =>
    (s.addLine (.chord { jump, gap, attributes, elements := notes ++ rests })).advance id chordEnd

/-- To write a chord is to enter it and to sound it. -/
theorem chord_eq (p : Plan) (c : Chord) :
    (Action.chord c).write p =
      enter p c >>= fun entry => sound p c entry.1 entry.2.1 entry.2.2 := by
  simp [Action.write, chord, enter, sound]

/-- A chord is written once it is entered and sounded. -/
theorem writes_chord {p : Plan} {c : Chord} {s entered s' : Score}
    {entry : PartId × Option Int × Option String} (henter : Writes (enter p c) s entry entered)
    (hsound : Writes (sound p c entry.1 entry.2.1 entry.2.2) entered () s') :
    Writes ((Action.chord c).write p) s () s' := by
  rw [chord_eq]
  exact Writes.bind henter hsound

end Writing

/-! ### Scores -/

/-- The score of slices is what their actions write. -/
theorem Plan.score_eq_ok {p : Plan} {slices : List Slice} {s : Score} :
    p.score slices = .ok s ↔ Writing.Writes ((p.actions slices).forM (Action.write p)) {} () s := by
  have hactions : Writing.slices p slices = (p.actions slices).forM (Action.write p) := by
    rw [Writing.slices_eq_calls, Writing.calls_eq]
    rfl
  unfold score Writing.Writes
  rw [hactions]
  split
  · rename_i s' hrun
    rw [hrun]
    simp
  · rename_i e s' hrun
    rw [hrun]
    simp

/-! ### Changing the part -/

/-- A plan for a well-formed recording, with the lengths of its resolution. -/
structure Plan.Proper (p : Plan) : Prop where
  recording : p.recording.WellFormed
  tables : p.tables.Proper

/-- The plan for a well-formed recording is proper. -/
theorem Plan.proper_of {r : Recording} (hrep : r.WellFormed) (settings : Settings) :
    (Plan.of r settings).Proper :=
  ⟨hrep, r.resolution, settings.minRest, hrep.resolution, rfl⟩

/-- The program of a channel of a well-formed recording has an instrument. -/
theorem Recording.WellFormed.programAt {r : Recording} (hrep : r.WellFormed) (channel tick : Int) :
    0 ≤ r.programAt channel tick ∧ r.programAt channel tick ≤ 127 := by
  unfold Recording.programAt Table.lastUpTo?
  cases hlast : ((r.programsOn channel).entries.takeWhile (fun e => ¬ tick < e.1)).getLast? with
  | none => simp
  | some e =>
    have hmem : e ∈ (r.programsOn channel).entries :=
      (List.takeWhile_sublist _).subset (List.mem_of_getLast? hlast)
    exact (hrep.chosen channel e hmem).2

/-- Every channel has its number. -/
@[simp] theorem Channel.ofInt_val (channel : Channel) :
    Channel.ofInt channel.val = .ok channel := by
  have hlt : channel.val < 16 := channel.isLt
  rw [Channel.ofInt, dif_pos ⟨by omega, by omega⟩]
  simp

/-- The part of a channel at a tick: the one of its program. -/
def Recording.partAt (r : Recording) (channel : Channel) (tick : Int) : PartId where
  channel
  program := Fin.ofNat 128 (r.programAt channel.val tick).toNat

/-- A channel whose program is in range has the part of this program. -/
theorem Recording.ofInt_programAt {r : Recording} {channel : Channel} {tick : Int}
    (hrange : 0 ≤ r.programAt channel.val tick ∧ r.programAt channel.val tick ≤ 127) :
    Program.ofInt (r.programAt channel.val tick) = .ok (r.partAt channel tick).program := by
  rw [Program.ofInt, dif_pos hrange]
  refine congrArg Except.ok (Fin.ext ?_)
  exact (Nat.mod_eq_of_lt (by omega)).symm

/-- In a well-formed recording the part of a channel is the one of its number and its program. -/
theorem Recording.WellFormed.ofInts_eq_ok {r : Recording} (hrep : r.WellFormed) {channel : Channel}
    {tick : Int} {id : PartId} :
    PartId.ofInts channel.val (r.programAt channel.val tick) = .ok id ↔
      r.partAt channel tick = id := by
  have hok : PartId.ofInts channel.val (r.programAt channel.val tick) =
      .ok (r.partAt channel tick) := by
    rw [PartId.ofInts, Channel.ofInt_val, Recording.ofInt_programAt (hrep.programAt _ tick)]
    rfl
  rw [hok, Except.ok.injEq]

/-- A score in which a part is declared or selected for its channel. -/
def Score.change (s : Score) (id : PartId) : Score :=
  { s.addLine (if id ∈ s.roster.ids then .select id else .declare id) with
    roster := s.roster.add id
    current := some id
    lanes := s.lanes.set id.channel (some id) }

namespace Writing

variable {p : Plan} {s : Score}

/-- A channel changes to the part of its program, if that is in range. -/
theorem writes_changePart_of_range {channel : Channel} {tick : Int}
    (hrange : 0 ≤ p.recording.programAt channel.val tick ∧
      p.recording.programAt channel.val tick ≤ 127) (s : Score) :
    Writes (changePart p channel.val channel tick) s (p.recording.partAt channel tick)
      (s.change (p.recording.partAt channel tick)) := by
  have hprogram := Recording.ofInt_programAt hrange
  generalize hid : p.recording.partAt channel tick = id at hprogram
  have hchannel : id.channel = channel := hid ▸ rfl
  have hdeclare : s.roster.declare channel.val (p.recording.programAt channel.val tick) =
      .ok (id, decide (id ∉ s.roster.ids), s.roster.add id) := by
    subst hchannel
    simp only [Roster.declare, hprogram, Channel.ofInt_val]
    rfl
  refine Writes.bind (a := s) rfl (Writes.bind (Writes.lift hdeclare s) ?_)
  have hscore : s.change id = { s.addLine
      (if decide (id ∉ s.roster.ids) = true then .declare id else .select id) with
      roster := s.roster.add id
      current := some id
      lanes := s.lanes.set channel (some id) } := by
    subst hchannel
    by_cases h : id ∈ s.roster.ids <;> simp [Score.change, h]
  rw [hscore]
  exact Writes.bind (Writes.act _ s) (Writes.pure _ _)

/-- A channel changes to the part of its program. -/
theorem writes_changePart (hp : p.Proper) (channel : Channel) (tick : Int) (s : Score) :
    Writes (changePart p channel.val channel tick) s (p.recording.partAt channel tick)
      (s.change (p.recording.partAt channel tick)) :=
  writes_changePart_of_range (hp.recording.programAt channel.val tick) s

/-- A channel changes its part only to the one of its program. -/
theorem changePart_eq {channel : Channel} {tick : Int} {id : PartId} {s' : Score}
    (h : Writes (changePart p channel.val channel tick) s id s') :
    id = p.recording.partAt channel tick ∧ s' = s.change id := by
  by_cases hrange : 0 ≤ p.recording.programAt channel.val tick ∧
      p.recording.programAt channel.val tick ≤ 127
  · obtain ⟨rfl, rfl⟩ := h.unique (writes_changePart_of_range hrange s)
    exact ⟨rfl, rfl⟩
  · obtain ⟨_, _, ⟨⟩, h⟩ := h.exists_bind
    obtain ⟨_, _, hdeclare, _⟩ := h.exists_bind
    rw [Roster.declare, Program.ofInt, dif_neg hrange] at hdeclare
    cases hdeclare

/-- The part for a chord is the selected one if its channel plays it, or else its channel changes to
the part of its program. -/
theorem partFor_cases {channel : Channel} {tick : Int} {id : PartId} {s' : Score}
    (h : Writes (partFor p channel.val channel tick) s id s') :
    s' = s ∧ s.current = some id ∧ s.lanes.get channel = some id ∨
      id = p.recording.partAt channel tick ∧ s' = s.change id := by
  obtain ⟨_, _, ⟨⟩, h⟩ := h.exists_bind
  split at h
  · rename_i id' hcurrent
    split at h
    · rename_i hlane
      cases h
      exact .inl ⟨rfl, hcurrent, hlane⟩
    · exact .inr (changePart_eq h)
  · exact .inr (changePart_eq h)

/-- There is a part for a chord, if the program of its channel is in range. -/
theorem exists_partFor {channel : Channel} {tick : Int}
    (hrange : 0 ≤ p.recording.programAt channel.val tick ∧
      p.recording.programAt channel.val tick ≤ 127) (s : Score) :
    ∃ id s', Writes (partFor p channel.val channel tick) s id s' := by
  have hchange := writes_changePart_of_range hrange s
  let id := p.recording.partAt channel tick
  cases hcurrent : s.current with
  | none =>
    refine ⟨id, s.change id, Writes.bind (a := s) rfl ?_⟩
    simp only [hcurrent]
    exact hchange
  | some selected =>
    by_cases hlane : s.lanes.get channel = some selected
    · refine ⟨selected, s, Writes.bind (a := s) rfl ?_⟩
      simp only [hcurrent, hlane, if_true]
      exact Writes.pure _ _
    · refine ⟨id, s.change id, Writes.bind (a := s) rfl ?_⟩
      simp only [hcurrent, hlane, if_false]
      exact hchange

/-- In a plan for a well-formed recording there is a part for every chord. -/
theorem writes_partFor (hp : p.Proper) (channel : Channel) (tick : Int) (s : Score) :
    ∃ id s', Writes (partFor p channel.val channel tick) s id s' ∧
      (s' = s ∧ s.current = some id ∧ s.lanes.get channel = some id ∨
        id = p.recording.partAt channel tick ∧ s' = s.change id) := by
  obtain ⟨id, s', hpart⟩ := exists_partFor (hp.recording.programAt channel.val tick) s
  exact ⟨id, s', hpart, partFor_cases hpart⟩

end Writing

/-- The slice to whose marker a part jumps before a chord. -/
def Chord.jump? (c : Chord) (id : PartId) (s : Score) : Option Int :=
  if (s.part id).cursor < c.slice.beginTick ∧ s.slice ∈ s.markers then some s.slice else none

/-- Where the cursor of a part is after the jump. -/
def Chord.landing (c : Chord) (id : PartId) (s : Score) : Int :=
  if (s.part id).cursor < c.slice.beginTick ∧ s.slice ∈ s.markers then c.slice.beginTick
  else (s.part id).cursor

namespace Score

variable {p : Plan} {id : PartId} {s : Score}

/-- Jumping changes the cursor of the part only. -/
theorem jump_alters (c : Chord) (id : PartId) (s : Score) :
    (s.jump c.slice id).1 = c.jump? id s ∧
      Alters id { s.part id with cursor := c.landing id s } 0 s (s.jump c.slice id).2 := by
  unfold jump Chord.landing Chord.jump?
  split
  · exact ⟨rfl, modifyPart_alters s id (fun part => { part with cursor := c.slice.beginTick })⟩
  · exact ⟨rfl, Alters.refl id s⟩

/-- Moving the cursor of a part on changes nothing else. -/
theorem advance_alters (id : PartId) (tick : Int) (s : Score) :
    Alters id ((s.part id).advanceTo tick) 0 s (s.advance id tick) :=
  modifyPart_alters s id (fun part => part.advanceTo tick)

/-- Resting up to a tick takes the part there, unless it is further on. -/
theorem restUpTo_alters (hid : id ∈ s.roster.ids) (tick : Int) :
    (s.restUpTo p id tick).1 = p.tables.restText? (tick - (s.part id).cursor) ∧
      Alters id (((s.part id).resting p.tables (tick - (s.part id).cursor)).advanceTo tick)
        (if (s.part id).cursor < tick then 1 else 0) s (s.restUpTo p id tick).2 := by
  obtain ⟨htext, hrest⟩ := rest_alters p id (tick - (s.part id).cursor) (s.part id).cursor s
  unfold restUpTo
  by_cases hgap : (s.part id).cursor < tick
  · have hstep := hrest.trans (advance_alters id tick _)
    rw [hrest.part_self hid, if_pos (by omega)] at hstep
    simp only [hgap, if_true]
    exact ⟨htext, hstep⟩
  · have hnone : p.tables.restText? (tick - (s.part id).cursor) = none := by
      rw [LengthTables.restText?, if_pos (Or.inl (by omega))]
    simp only [hgap, if_false, hnone, PartState.resting, PartState.advanceTo]
    exact ⟨trivial, Alters.refl id s⟩

/-! ### The notes of a chord -/

/-- Counting notes changes no part. -/
theorem countTones_alters (channel tick : Int) (tones : List Tone) (id : PartId) (s : Score) :
    Alters id (s.part id) 0 s (s.countTones channel tick tones) := by
  induction tones generalizing s with
  | nil => exact Alters.refl id s
  | cons tone rest ih =>
    have hcount (s : Score) : Alters id (s.part id) 0 s
        { s with statistics := s.statistics.count channel .note tone.written.tokens } := by
      refine count_alters id s.notices ?_
      simp only [tries, Statistics.count, Statistics.countTokens, Statistics.add, Counters.add,
        Item.count, Item.summands, Item.triplets]
      omega
    have hfirst : Alters id (s.part id) 0 s (countTone channel tick s tone) := by
      unfold countTone
      by_cases hnone : tone.written.tokens = []
      · have hwarn : Alters id (s.part id) 0 s (s.warn (noteWarning channel tick tone)) :=
          count_alters id _ (Int.add_zero _).symm
        simp only [hnone, if_true]
        rw [hnone] at hcount
        exact hwarn.trans (hcount _)
      · simp only [hnone, if_false]
        exact hcount s
    have hrest := ih (countTone channel tick s tone)
    have hsame : (countTone channel tick s tone).part id = s.part id := by
      unfold countTone
      split <;> rfl
    rw [hsame] at hrest
    exact hfirst.trans hrest

end Score

/-- The state of a part after a note, which sets the octave and the length of the next one. -/
def PartState.sing (part : PartState) (tone : Score.Tone) : PartState :=
  { part with octave := Spelling.octave tone.pitch, length := tone.written.text }

/-- The notes of a chord as they are written by a part. What the part implies is left out. -/
def PartState.elements (fifths : Int) : List Score.Tone → PartState → List Element
  | [], _ => []
  | tone :: rest, part =>
    .note (Spelling.octave tone.pitch - part.octave) (Spelling.name fifths tone.pitch)
        (if tone.written.text = part.length then none else some tone.written.text) ::
      elements fifths rest (part.sing tone)

/-- The length of a note is known where it is left out: it is that of its part. -/
theorem PartState.getD_written (part : PartState) (tone : Score.Tone) :
    (if tone.written.text = part.length then none else some tone.written.text).getD part.length =
      tone.written.text := by
  split
  · rename_i heq
    exact heq.symm
  · rfl

/-- Notes leave the cursor of a part where it is. -/
theorem PartState.cursor_foldl_sing (tones : List Score.Tone) (part : PartState) :
    (tones.foldl PartState.sing part).cursor = part.cursor := by
  induction tones generalizing part with
  | nil => rfl
  | cons tone rest ih => exact ih (part.sing tone)

/-- A tone that can be written: its pitch has a name and its velocity a volume. -/
structure Score.Tone.InRange (tone : Score.Tone) : Prop where
  pitch : 0 ≤ tone.pitch ∧ tone.pitch ≤ 127
  velocity : 1 ≤ tone.velocity ∧ tone.velocity ≤ 127

/-- Every velocity of a note has a volume. -/
theorem Score.exists_volume {velocity : Int} (h : 1 ≤ velocity ∧ velocity ≤ 127) :
    ∃ percent, Score.volume velocity = .ok percent := by
  have hall : ∀ v : Fin 128, (Score.volume v.val).toOption.isSome := by decide +kernel
  have hsome := hall ⟨velocity.toNat, by omega⟩
  simp only [Int.toNat_of_nonneg (show 0 ≤ velocity by omega)] at hsome
  cases hvolume : Score.volume velocity with
  | error e => simp [hvolume, Except.toOption] at hsome
  | ok percent => exact ⟨percent, rfl⟩

/-- Two states of a part with the same cursor whose next notes inherit the same. -/
structure PartState.Keeps (part part' : PartState) : Prop where
  cursor : part.cursor = part'.cursor
  octave : part.octave = part'.octave
  length : part.length = part'.length

/-- Keeping is transitive. -/
theorem PartState.Keeps.trans {part part' part'' : PartState} (h : part.Keeps part')
    (h' : part'.Keeps part'') : part.Keeps part'' :=
  ⟨h.cursor.trans h'.cursor, h.octave.trans h'.octave, h.length.trans h'.length⟩

/-- A note keeps what the next note inherits the same. -/
theorem PartState.Keeps.sing {part part' : PartState} (h : part.Keeps part')
    (tone : Score.Tone) : (part.sing tone).Keeps (part'.sing tone) := ⟨h.cursor, rfl, rfl⟩

/-- Notes are written in the same way by parts that keep what a note inherits. -/
theorem PartState.Keeps.elements_eq {part part' : PartState} (h : part.Keeps part') (fifths : Int)
    (tones : List Score.Tone) :
    PartState.elements fifths tones part = PartState.elements fifths tones part' := by
  induction tones generalizing part part' with
  | nil => rfl
  | cons tone rest ih =>
    rw [PartState.elements, PartState.elements, h.octave, h.length,
      ih (h.sing tone)]

/-- Notes keep what the next note inherits the same. -/
theorem PartState.Keeps.foldl_sing {part part' : PartState} (h : part.Keeps part')
    (tones : List Score.Tone) :
    (tones.foldl PartState.sing part).Keeps (tones.foldl PartState.sing part') := by
  induction tones generalizing part part' with
  | nil => exact h
  | cons tone rest ih => exact ih (h.sing tone)

namespace Score

/-- Changing the quantization keeps what the next note inherits. -/
theorem changeQuant_alters (id : PartId) (tone : Tone) (s : Score) :
    ∃ part, Alters id part 0 s (s.changeQuant id tone).2 ∧ part.Keeps (s.part id) := by
  by_cases hsame : max 1 tone.written.percent = (s.part id).quant
  · simp only [changeQuant, hsame, if_true]
    exact ⟨_, Alters.refl id s, rfl, rfl, rfl⟩
  · simp only [changeQuant, hsame, if_false]
    exact ⟨_, modifyPart_alters s id (fun part =>
      { part with quant := max 1 tone.written.percent }), rfl, rfl, rfl⟩

/-- Changing the velocity keeps what the next note inherits. -/
theorem changeVelocity_keeps {id : PartId} {tone : Tone} {s s' : Score} {volumes : List Attribute}
    (h : s.changeVelocity id tone = .ok (volumes, s')) :
    ∃ part, Alters id part 0 s s' ∧ part.Keeps (s.part id) := by
  unfold changeVelocity at h
  split at h
  · cases h
    exact ⟨_, Alters.refl id s, rfl, rfl, rfl⟩
  · obtain ⟨percent, _, h⟩ := bind_eq_ok.mp h
    cases h
    exact ⟨_, modifyPart_alters s id (fun part => { part with velocity := tone.velocity }),
      rfl, rfl, rfl⟩

/-- Changing the velocity to that of a tone in range succeeds. -/
theorem exists_changeVelocity (id : PartId) {tone : Tone} (htone : tone.InRange) (s : Score) :
    ∃ volumes s', s.changeVelocity id tone = .ok (volumes, s') := by
  obtain ⟨percent, hvolume⟩ := exists_volume htone.velocity
  unfold changeVelocity
  by_cases hsame : tone.velocity = (s.part id).velocity
  · rw [if_pos hsame]
    exact ⟨[], s, rfl⟩
  · rw [if_neg hsame, hvolume]
    exact ⟨_, _, rfl⟩

end Score

namespace Writing

open Score

variable {p : Plan} {id : PartId} {s : Score}

/-- A note whose pitch has a name is written. -/
theorem writes_note {tone : Tone} (hpitch : 0 ≤ tone.pitch ∧ tone.pitch ≤ 127) (id : PartId)
    (s : Score) :
    ∃ s', Writes (note id tone) s
        (.note (Spelling.octave tone.pitch - (s.part id).octave)
          (Spelling.name s.key.fifths tone.pitch)
          (if tone.written.text = (s.part id).length then none else some tone.written.text)) s' ∧
      Alters id ((s.part id).sing tone) 0 s s' := by
  have hspell : Spelling.spell s.key.fifths tone.pitch =
      .ok (Spelling.name s.key.fifths tone.pitch, Spelling.octave tone.pitch) := by
    rw [Spelling.spell, if_pos hpitch]
  refine ⟨_, ?_, modifyPart_alters s id (fun part => part.sing tone)⟩
  refine Writes.bind (a := s) rfl (Writes.bind (Writes.lift hspell s) ?_)
  exact Writes.bind (Writes.act _ s) (Writes.pure _ _)

/-- The notes of a chord are written if their pitches have names. -/
theorem writes_notes {tones : List Tone}
    (hpitches : ∀ tone ∈ tones, 0 ≤ tone.pitch ∧ tone.pitch ≤ 127)
    (hid : id ∈ s.roster.ids) :
    ∃ s', Writes (tones.mapM (note id)) s (PartState.elements s.key.fifths tones (s.part id)) s' ∧
      Alters id (tones.foldl PartState.sing (s.part id)) 0 s s' := by
  induction tones generalizing s with
  | nil => exact ⟨s, rfl, Alters.refl id s⟩
  | cons tone rest ih =>
    obtain ⟨s₁, hfirst, halters⟩ := writes_note (hpitches tone List.mem_cons_self) id s
    obtain ⟨s₂, hrest, halters'⟩ :=
      ih (s := s₁) (fun tone' h => hpitches tone' (List.mem_cons_of_mem _ h)) (halters.ids ▸ hid)
    rw [halters.part_self hid] at hrest halters'
    rw [halters.key] at hrest
    refine ⟨s₂, ?_, halters.trans halters'⟩
    rw [List.mapM_cons]
    exact Writes.bind hfirst (Writes.bind hrest (Writes.pure _ _))

/-- The attributes of a chord in range are written. -/
theorem exists_attributes {tones : List Tone} (htones : ∀ tone ∈ tones, tone.InRange) (s : Score) :
    ∃ written s', Writes (attributes p id tones) s written s' := by
  cases tones with
  | nil => exact ⟨[], s, rfl⟩
  | cons tone rest =>
    by_cases hshown : p.settings.attributes = true
    · obtain ⟨volumes, s', hok⟩ :=
        exists_changeVelocity id (htones tone List.mem_cons_self) (s.changeQuant id tone).2
      refine ⟨(s.changeQuant id tone).1 ++ volumes, s', ?_⟩
      simp only [attributes, hshown, Bool.not_true, Bool.false_eq_true, if_false]
      exact Writes.bind (Writes.of _ s) (Writes.bind (Writes.check hok) (Writes.pure _ _))
    · refine ⟨[], s, ?_⟩
      simp only [attributes, hshown]
      exact Writes.pure _ _

/-- Attributes that are written keep what the next note inherits. -/
theorem attributes_alters {tones : List Tone} (hid : id ∈ s.roster.ids) {written : List Attribute}
    {s' : Score} (h : Writes (attributes p id tones) s written s') :
    ∃ part, Alters id part 0 s s' ∧ part.Keeps (s.part id) := by
  have hsame : ∃ part, Alters id part 0 s s ∧ part.Keeps (s.part id) :=
    ⟨_, Alters.refl id s, rfl, rfl, rfl⟩
  unfold attributes at h
  split at h
  · cases h
    exact hsame
  · rename_i tone _
    split at h
    · cases h
      exact hsame
    · obtain ⟨part, halters, hkeeps⟩ := changeQuant_alters id tone s
      obtain ⟨quants, s₁, hquant, h⟩ := h.exists_bind
      obtain ⟨_, rfl⟩ := hquant.unique (Writes.of _ s)
      obtain ⟨_, s₂, hcheck, ⟨⟩⟩ := h.exists_bind
      obtain ⟨part', halters', hkeeps'⟩ := changeVelocity_keeps hcheck.of_check
      rw [halters.part_self hid] at hkeeps'
      exact ⟨part', halters.trans halters', hkeeps'.trans hkeeps⟩

end Writing

/-! ### Leaving a chord -/

namespace Chord

/-- The tick at which the shortest note of a chord ends. -/
def noteEnd (c : Chord) : Int := Score.chordEnd c.tones

/-- Where a chord has to be left before its notes end. -/
def cut? (c : Chord) : Option Int := Score.cut c.next c.slice.endTick c.noteEnd

/-- The rest inside a chord, if it has to be left early and there is a rest for it. -/
def rest? (t : LengthTables) (c : Chord) : Option String :=
  c.cut?.bind (fun cut => t.restText? (cut - c.tick))

/-- The tick at which a chord is left. -/
def leave (t : LengthTables) (c : Chord) : Int :=
  if (c.rest? t).isSome then c.cut?.getD 0 else c.noteEnd

end Chord

namespace Score

variable {p : Plan} {id : PartId}

/-- Resting inside a chord gives its part the length of the rest, if there is one. -/
theorem restInChord_alters (p : Plan) (id : PartId) (c : Chord) (s : Score) :
    (s.restInChord p id c.tick c.cut? c.noteEnd).1 =
        (((c.rest? p.tables).map Element.rest).toList, c.leave p.tables) ∧
      ∃ n, Alters id { s.part id with length := (c.rest? p.tables).getD (s.part id).length } n s
          (s.restInChord p id c.tick c.cut? c.noteEnd).2 ∧
        0 ≤ n ∧ ((c.rest? p.tables).isSome → n = 1) := by
  unfold restInChord Chord.leave Chord.rest?
  cases hcut : c.cut? with
  | none => exact ⟨rfl, 0, Alters.refl id s, Int.le_refl _, by simp⟩
  | some cut =>
    obtain ⟨htext, halters⟩ := rest_alters p id (cut - c.tick) c.tick s
    have hrest : (some cut).bind (fun cut => p.tables.restText? (cut - c.tick)) =
        p.tables.restText? (cut - c.tick) := rfl
    cases hstep : s.rest p id (cut - c.tick) c.tick with
    | mk text s' =>
      rw [hstep] at htext halters
      simp only [hrest, hstep, ← htext]
      rw [PartState.resting, ← htext] at halters
      have hnonneg : (0 : Int) ≤ if 0 < cut - c.tick then 1 else 0 := by split <;> decide
      cases text with
      | none => exact ⟨rfl, _, halters, hnonneg, by simp⟩
      | some length =>
        refine ⟨rfl, _, halters, hnonneg, fun _ => if_pos ?_⟩
        by_contra hgap
        have hnone : p.tables.restText? (cut - c.tick) = none := by
          rw [LengthTables.restText?, if_pos (Or.inl (by omega))]
        rw [hnone] at htext
        cases htext

end Score

/-! ### The whole passage -/

/-- The state in which a part enters a chord. -/
def Chord.entering (t : LengthTables) (c : Chord) (id : PartId) (s : Score) : PartState :=
  PartState.advanceTo
    (PartState.resting t (c.tick - c.landing id s) { s.part id with cursor := c.landing id s })
    c.tick

/-- A part enters a chord at its onset, unless it is further on. -/
theorem Chord.cursor_entering (t : LengthTables) (c : Chord) (id : PartId) (s : Score) :
    (c.entering t id s).cursor = max (c.landing id s) c.tick := by
  rw [entering, PartState.cursor_advanceTo, PartState.resting]

/-- A chord that is sounded by a part: its line, the state in which the part leaves it, and all that
stays as it was. -/
structure Sounds (p : Plan) (c : Chord) (id : PartId) (jump : Option Int) (gap : Option String)
    (s s' : Score) : Prop where
  line : ∃ attributes, s'.lines = s.lines.push (.chord
    { jump, gap, attributes
      elements := PartState.elements s.key.fifths c.tones (s.part id) ++
        ((c.rest? p.tables).map Element.rest).toList })
  ids : s'.roster.ids = s.roster.ids
  lanes : s'.lanes = s.lanes
  current : s'.current = s.current
  key : s'.key = s.key
  slice : s'.slice = s.slice
  markers : s'.markers = s.markers
  cursor : (s'.part id).cursor = max (s.part id).cursor (c.leave p.tables)
  octave : (s'.part id).octave = (c.tones.foldl PartState.sing (s.part id)).octave
  length : (s'.part id).length =
    (c.rest? p.tables).getD (c.tones.foldl PartState.sing (s.part id)).length
  others : ∀ id', id' ≠ id → s'.part id' = s.part id'
  tries : s.tries ≤ s'.tries
  rested : (c.rest? p.tables).isSome → s'.tries = s.tries + 1

namespace Writing

open Score

variable {p : Plan} {id : PartId} {s s' : Score} {c : Chord}

/-- A part that jumps and rests up to a chord enters it. -/
theorem entering_alters (c : Chord) (hid : id ∈ s.roster.ids) :
    ((s.jump c.slice id).2.restUpTo p id c.tick).1 =
        p.tables.restText? (c.tick - c.landing id s) ∧
      Alters id (c.entering p.tables id s) (if c.landing id s < c.tick then 1 else 0) s
        ((s.jump c.slice id).2.restUpTo p id c.tick).2 := by
  obtain ⟨_, hjumped⟩ := jump_alters c id s
  have hid₁ : id ∈ (s.jump c.slice id).2.roster.ids := hjumped.ids ▸ hid
  obtain ⟨hgap, hrested⟩ := restUpTo_alters (p := p) hid₁ c.tick
  rw [hjumped.part_self hid] at hgap hrested
  have hall := hjumped.trans hrested
  rw [Int.zero_add] at hall
  exact ⟨hgap, hall⟩

/-- A part enters a chord. -/
theorem writes_enter
    (hpart : Writes (partFor p c.channel.val c.channel c.tick)
      (s.countTones c.channel.val c.tick c.tones) id s') (hid : id ∈ s'.roster.ids) :
    ∃ s'', Writes (enter p c) s
        (id, c.jump? id s', p.tables.restText? (c.tick - c.landing id s')) s'' ∧
      Alters id (c.entering p.tables id s') (if c.landing id s' < c.tick then 1 else 0) s' s'' := by
  obtain ⟨hgap, hentered⟩ := entering_alters (p := p) c hid
  refine ⟨_, ?_, hentered⟩
  rw [← (jump_alters c id s').1, ← hgap]
  exact Writes.bind (Writes.act _ s) (Writes.bind hpart (Writes.bind (Writes.of _ s')
    (Writes.bind (Writes.of _ _) (Writes.pure _ _))))

/-- Once its attributes are written, a part sounds a chord whose pitches have names. -/
theorem sound_of_attributes (hpitches : ∀ tone ∈ c.tones, 0 ≤ tone.pitch ∧ tone.pitch ≤ 127)
    (hid : id ∈ s.roster.ids) {attributes : List Attribute} {s₁ : Score}
    (hattributes : Writes (Writing.attributes p id c.tones) s attributes s₁)
    (jump : Option Int) (gap : Option String) :
    ∃ s', Writes (sound p c id jump gap) s () s' ∧ Sounds p c id jump gap s s' := by
  obtain ⟨part, halters₁, hkeeps⟩ := attributes_alters hid hattributes
  have hid₁ : id ∈ s₁.roster.ids := halters₁.ids ▸ hid
  obtain ⟨s₂, hnotes, halters₂⟩ := writes_notes hpitches hid₁
  have hid₂ : id ∈ s₂.roster.ids := halters₂.ids ▸ hid₁
  obtain ⟨hrest, n, halters₃, hn, hrested⟩ := restInChord_alters p id c s₂
  generalize hs₃ : (s₂.restInChord p id c.tick c.cut? c.noteEnd).2 = s₃ at halters₃
  have hall := ((halters₁.trans halters₂).trans halters₃).trans
    (advance_alters id (c.leave p.tables) s₃)
  have hleft := hall.part_self hid
  rw [halters₃.part_self hid₂, halters₂.part_self hid₁, halters₁.part_self hid] at hleft
  have hline : PartState.elements s₁.key.fifths c.tones (s₁.part id) =
      PartState.elements s.key.fifths c.tones (s.part id) := by
    rw [halters₁.key, halters₁.part_self hid, hkeeps.elements_eq]
  have hsung := hkeeps.foldl_sing c.tones
  let line : ChordLine :=
    { jump, gap, attributes
      elements := PartState.elements s.key.fifths c.tones (s.part id) ++
        ((c.rest? p.tables).map Element.rest).toList }
  have hrun : Writes (sound p c id jump gap) s ()
      ((s₃.addLine (.chord line)).advance id (c.leave p.tables)) := by
    have hrests : Writes (of (restInChord p id c.tick c.cut? c.noteEnd)) s₂
        (((c.rest? p.tables).map Element.rest).toList, c.leave p.tables) s₃ := by
      rw [← hrest, ← hs₃]
      exact Writes.of _ s₂
    rw [hline] at hnotes
    exact Writes.bind hattributes (Writes.bind hnotes (Writes.bind hrests (Writes.act _ s₃)))
  refine ⟨_, hrun, ?_⟩
  have hpart (id' : PartId) : ((s₃.addLine (.chord line)).advance id (c.leave p.tables)).part id' =
      (s₃.advance id (c.leave p.tables)).part id' := rfl
  refine ⟨⟨attributes, congrArg (fun l => l.push (Line.chord line)) hall.lines⟩, hall.ids,
    hall.lanes, hall.current, hall.key, hall.slice, hall.markers, ?_, ?_, ?_, fun id' hne => ?_, ?_,
    ?_⟩
  · rw [hpart, hleft, PartState.cursor_advanceTo]
    simp only [PartState.cursor_foldl_sing, hkeeps.cursor]
  · rw [hpart, hleft, PartState.octave_advanceTo]
    exact hsung.octave
  · rw [hpart, hleft, PartState.length_advanceTo]
    simp only [hsung.length]
  · rw [hpart, hall.part_eq hid, if_neg hne]
  · have htries := hall.tries
    change s.tries ≤ (s₃.advance id (c.leave p.tables)).tries
    omega
  · intro hsome
    have htries := hall.tries
    have hone := hrested hsome
    change (s₃.advance id (c.leave p.tables)).tries = s.tries + 1
    omega

/-- A part sounds a chord in range. -/
theorem writes_sound (htones : ∀ tone ∈ c.tones, tone.InRange) (hid : id ∈ s.roster.ids)
    (jump : Option Int) (gap : Option String) :
    ∃ s', Writes (sound p c id jump gap) s () s' ∧ Sounds p c id jump gap s s' := by
  obtain ⟨attributes, s₁, hattributes⟩ := exists_attributes htones s
  exact sound_of_attributes (fun tone h => (htones tone h).pitch) hid hattributes jump gap

/-- A chord whose pitches have names is sounded by its part whenever it is written. -/
theorem sounds_of_writes (hpitches : ∀ tone ∈ c.tones, 0 ≤ tone.pitch ∧ tone.pitch ≤ 127)
    (hid : id ∈ s.roster.ids) {jump : Option Int} {gap : Option String}
    (h : Writes (sound p c id jump gap) s () s') : Sounds p c id jump gap s s' := by
  obtain ⟨attributes, s₁, hattributes, _⟩ := Writes.exists_bind h
  obtain ⟨s'', hsound, hsounds⟩ := sound_of_attributes hpitches hid hattributes jump gap
  obtain ⟨_, rfl⟩ := h.unique hsound
  exact hsounds

end Writing

end Transcription
