import Mathlib.Order.Bounds.Basic
import Transcription.Proofs.Score.Groups

/-!
# How a chord moves its part

A part reaches a chord by a jump or a rest, if it is not there yet. It leaves the chord at the end
of the shortest note, or earlier: where the next chord begins or the slice ends, as long as a rest
can be written from the onset to there. This rest is then the shortest element of the chord, and it
falls short of the place by less than the shortest rest.
-/

namespace Transcription

open Writing

/-! ### Rests for gaps -/

namespace LengthTables

variable {t : LengthTables}

/-- What is written of a gap: a rest that falls short of the gap by less than the shortest rest, or
nothing if the gap is shorter than that. -/
structure RestsFor (t : LengthTables) (gap : Int) (written : Option String) : Prop where
  rested : t.shortestRest ≤ gap → ∃ length ticks, written = some length ∧
    t.rests.ticks? length = some ticks ∧ gap - t.shortestRest < ticks ∧ ticks ≤ gap
  skipped : gap < t.shortestRest → written = none

/-- The rest for a gap is what is written of it, if some rest length is allowed. -/
theorem Proper.restsFor (h : t.Proper) (hrest : ∃ e ∈ t.rests.entries, t.minRest ≤ e.1)
    (gap : Int) : t.RestsFor gap (t.restText? gap) := by
  constructor
  case rested =>
    intro hle
    have hpos := h.shortestRest_pos hrest
    obtain ⟨length, htext⟩ := Option.isSome_iff_exists.mp (h.isSome_restText? hrest hle)
    obtain ⟨hticks, _⟩ := h.ticks?_restText htext
    obtain ⟨_, hbound⟩ := h.restTicks_bounds (show 0 ≤ gap by omega)
    have hleft := h.sub_restTicks_lt hrest (show 0 ≤ gap by omega)
    exact ⟨length, _, htext, hticks, by omega, hbound⟩
  case skipped =>
    intro hlt
    rw [restText?, if_pos (Or.inr (restSummands_eq_nil hlt))]

end LengthTables

/-! ### The places at which a chord is left -/

namespace Chord

variable {t : LengthTables} {c : Chord}

/-- The ticks at which the notes of a chord end. -/
def ends (c : Chord) : Set Int := {tick | ∃ tone ∈ c.tones, tone.written.endTick = tick}

/-- The places at which a chord has to be left while all of its notes still sound. -/
def cuts (c : Chord) (noteEnd : Int) : Set Int :=
  {tick | (c.next = some tick ∨ c.slice.endTick = tick) ∧ tick < noteEnd}

/-- The end of a chord with notes is the first end of a note. -/
theorem isLeast_noteEnd (h : c.tones ≠ []) : IsLeast c.ends c.noteEnd := by
  obtain ⟨hmem, hle⟩ := List.min?_eq_some_iff.mp (min?_endTicks h)
  refine ⟨List.mem_map.mp hmem, ?_⟩
  intro tick htick
  exact hle tick (List.mem_map.mpr htick)

/-- A chord is cut at the first place at which it has to be left. -/
theorem isLeast_cuts_iff {cut : Int} : IsLeast (c.cuts c.noteEnd) cut ↔ c.cut? = some cut := by
  let places := (c.next.toList ++ [c.slice.endTick]).filter (fun t => t < c.noteEnd)
  have hmem (tick : Int) : tick ∈ c.cuts c.noteEnd ↔ tick ∈ places := by
    simp [places, cuts, eq_comm, or_and_right]
  have hle : cut ∈ lowerBounds (c.cuts c.noteEnd) ↔ ∀ tick ∈ places, cut ≤ tick := by
    simp only [mem_lowerBounds, hmem]
  rw [cut?, Score.cut, List.min?_eq_some_iff, IsLeast, hmem, hle]

/-- The notes of a chord, one for each tone under the name of its pitch. -/
def Sings (fifths : Int) (c : Chord) (elements : List Element) : Prop :=
  List.Forall₂
    (fun tone e => ∃ shift length, e = .note shift (Spelling.name fifths tone.pitch) length)
    c.tones elements

/-- A part writes one note for each tone. -/
theorem sings_elements (fifths : Int) (c : Chord) (part : PartState) :
    c.Sings fifths (PartState.elements fifths c.tones part) := by
  unfold Sings
  induction c.tones generalizing part with
  | nil => exact .nil
  | cons tone rest ih => exact .cons ⟨_, _, rfl⟩ (ih (part.sing tone))

/-- How a part gets to a chord, and where its cursor is when the chord starts: it jumps to the
marker of the slice if it is behind that, and rests up to the chord if it is not there yet. -/
structure Reaches (t : LengthTables) (c : Chord) (id : PartId) (s : Score) (line : ChordLine)
    (start : Int) : Prop where
  reached : c.tick ≤ start
  start : start = max (c.landing id s) c.tick
  jump : line.jump = c.jump? id s
  gap : t.RestsFor (c.tick - c.landing id s) line.gap

/-- How a part goes on after a chord that it has reached: from the first place at which the chord
has to be left, with a rest in the chord that is shorter than every note, or from the end of the
shortest note. -/
structure Leaves (t : LengthTables) (c : Chord) (fifths start noteEnd : Int)
    (elements : List Element) (cursor : Int) : Prop where
  early : ∀ cut, IsLeast (c.cuts noteEnd) cut → t.shortestRest ≤ cut - c.tick →
    ∃ notes length ticks, elements = notes ++ [.rest length] ∧ c.Sings fifths notes ∧
      t.rests.ticks? length = some ticks ∧
      cut - c.tick - t.shortestRest < ticks ∧ ticks ≤ cut - c.tick ∧
      (∀ tone ∈ c.tones, ticks < tone.written.endTick - c.tick) ∧ cursor = max start cut
  whole : (∀ cut, IsLeast (c.cuts noteEnd) cut → cut - c.tick < t.shortestRest) →
    c.Sings fifths elements ∧ cursor = max start noteEnd

/-- The rest inside a chord and the tick at which the chord is left are those of the first place at
which it has to be left. -/
theorem leaves_of (ht : t.Proper) (hrest : ∃ e ∈ t.rests.entries, t.minRest ≤ e.1)
    (hne : c.tones ≠ []) {fifths start cursor : Int} {notes : List Element}
    (hsings : c.Sings fifths notes) (hcursor : cursor = max start (c.leave t)) :
    c.Leaves t fifths start c.noteEnd (notes ++ ((c.rest? t).map Element.rest).toList) cursor := by
  obtain ⟨_, hends⟩ := isLeast_noteEnd hne
  constructor
  case early =>
    intro cut hleast hle
    have hcut := isLeast_cuts_iff.mp hleast
    obtain ⟨length, ticks, htext, hticks, hlower, hupper⟩ :=
      (ht.restsFor hrest (cut - c.tick)).rested hle
    have hwritten : c.rest? t = some length := by rw [rest?, hcut, Option.bind_some, htext]
    have hleave : c.leave t = cut := by simp [leave, hwritten, hcut]
    obtain ⟨hlt, _⟩ := cut?_eq_some hcut
    refine ⟨notes, length, ticks, by rw [hwritten]; rfl, hsings, hticks, hlower, hupper, ?_, ?_⟩
    · intro tone htone
      have := hends ⟨tone, htone, rfl⟩
      omega
    · rw [hcursor, hleave]
  case whole =>
    intro hshort
    have hnone : c.rest? t = none := by
      cases hcut : c.cut? with
      | none => rw [rest?, hcut, Option.bind_none]
      | some cut =>
        have hlt := hshort cut (isLeast_cuts_iff.mpr hcut)
        rw [rest?, hcut, Option.bind_some, (ht.restsFor hrest _).skipped hlt]
    rw [hnone, Option.map_none, Option.toList_none, List.append_nil]
    refine ⟨hsings, ?_⟩
    rw [hcursor, leave_of_no_rest hnone]

end Chord

/-! ### The chord -/

/-- How a chord moves its part: the part is the selected one of its channel, or is declared or
selected for it; it reaches the chord, is written on one line with it, and leaves it. All other
parts stay where they are. -/
structure Chord.Moves (p : Plan) (c : Chord) (id : PartId) (s s' : Score) : Prop where
  selected : s'.current = some id
  plays : s'.lanes.get c.channel = some id
  others : ∀ id', id' ≠ id → s'.part id' = s.part id'
  line : ∃ before line start noteEnd, s'.lines = before.push (.chord line) ∧
    (before = s.lines ∨ before = s.lines.push (.select id) ∨ before = s.lines.push (.declare id)) ∧
    c.Reaches p.tables id s line start ∧ IsLeast c.ends noteEnd ∧
    c.Leaves p.tables s.key.fifths start noteEnd line.elements (s'.part id).cursor

namespace Score

/-- A part is selected for a channel that plays it, on another line if that is needed. -/
structure Selects (channel : Channel) (id : PartId) (s s' : Score) : Prop where
  declared : id ∈ s'.roster.ids
  current : s'.current = some id
  lane : s'.lanes.get channel = some id
  part : ∀ id', s'.part id' = s.part id'
  key : s'.key = s.key
  slice : s'.slice = s.slice
  markers : s'.markers = s.markers
  lines : s'.lines = s.lines ∨ s'.lines = s.lines.push (.select id) ∨
    s'.lines = s.lines.push (.declare id)

/-- Declaring or selecting a part selects it for its channel. -/
theorem selects_change (id : PartId) (s : Score) : Selects id.channel id s (s.change id) where
  declared := by
    change id ∈ (s.roster.add id).ids
    rw [Roster.ids_add]
    split
    · assumption
    · exact List.mem_append_right _ List.mem_cons_self
  current := rfl
  lane := Vector.getElem_set_self _
  part id' := s.roster.state_add id id'
  key := rfl
  slice := rfl
  markers := rfl
  lines := by
    refine .inr ?_
    change s.lines.push _ = _ ∨ s.lines.push _ = _
    split
    · exact .inl rfl
    · exact .inr rfl

/-- A part that is selected is where it was, so it jumps to a chord as it would have before. -/
theorem Selects.approach {channel : Channel} {id : PartId} {s s' : Score}
    (h : Selects channel id s s') (c : Chord) :
    c.jump? id s' = c.jump? id s ∧ c.landing id s' = c.landing id s := by
  rw [Chord.jump?, Chord.jump?, Chord.landing, Chord.landing, h.part, h.slice, h.markers]
  exact ⟨rfl, rfl⟩

/-- The part for a chord is selected for its channel, if no undeclared part was selected before. -/
theorem selects_of_partFor {p : Plan} {channel : Channel} {tick : Int} {id : PartId}
    {s s' : Score} (hdeclared : ∀ id', s.current = some id' → id' ∈ s.roster.ids)
    (h : Writes (partFor p channel.val channel tick) s id s') : Selects channel id s s' := by
  rcases partFor_cases h with ⟨rfl, hcurrent, hlane⟩ | ⟨rfl, rfl⟩
  · exact ⟨hdeclared id hcurrent, hcurrent, hlane, fun _ => rfl, rfl, rfl, rfl, .inl rfl⟩
  · exact selects_change (p.recording.partAt channel tick) s

end Score

namespace Writing

variable {p : Plan} {c : Chord} {s s' : Score}

/-- To write a chord is to find its part, to go there with a jump and a rest, and to sound it. -/
theorem chord_eq_sound (p : Plan) (c : Chord) :
    chord p c.slice c.channel.val c.channel c.tick c.next c.tones =
      partFor p c.channel.val c.channel c.tick >>= fun id =>
        of (Score.jump c.slice id) >>= fun jump =>
          of (Score.restUpTo p id c.tick) >>= fun gap => sound p c id jump gap := rfl

/-- A chord of tones whose pitches have names moves its part whenever it is written. -/
theorem moves_of_chord (ht : p.tables.Proper)
    (hrest : ∃ e ∈ p.tables.rests.entries, p.tables.minRest ≤ e.1) (hne : c.tones ≠ [])
    (hpitches : ∀ tone ∈ c.tones, 0 ≤ tone.pitch ∧ tone.pitch ≤ 127)
    (hdeclared : ∀ id, s.current = some id → id ∈ s.roster.ids)
    (h : Writes (chord p c.slice c.channel.val c.channel c.tick c.next c.tones) s () s') :
    ∃ id, c.Moves p id s s' := by
  rw [chord_eq_sound] at h
  obtain ⟨id, s₁, hpart, h⟩ := h.exists_bind
  obtain ⟨jump, s₂, hjump, h⟩ := h.exists_bind
  obtain ⟨gap, s₃, hgap, h⟩ := h.exists_bind
  have hselects := Score.selects_of_partFor hdeclared hpart
  obtain ⟨rfl, rfl⟩ := hjump.unique (Writes.of _ s₁)
  obtain ⟨rfl, rfl⟩ := hgap.unique (Writes.of _ _)
  obtain ⟨hjumped, _⟩ := Score.jump_alters c id s₁
  obtain ⟨hrested, hentered⟩ := entering_alters (p := p) c hselects.declared
  have hsounds := sounds_of_writes hpitches (hentered.ids ▸ hselects.declared) h
  obtain ⟨attributes, hlines⟩ := hsounds.line
  have hself := hentered.part_self hselects.declared
  obtain ⟨hjump, hlanding⟩ := hselects.approach c
  rw [hentered.lines, hentered.key, hselects.key, hself] at hlines
  refine ⟨id, ?_⟩
  constructor
  case selected => rw [hsounds.current, hentered.current, hselects.current]
  case plays => rw [hsounds.lanes, hentered.lanes, hselects.lane]
  case others =>
    intro id' hother
    rw [hsounds.others id' hother, hentered.part_eq hselects.declared, if_neg hother, hselects.part]
  case line =>
    refine ⟨s₁.lines, _, max (c.landing id s) c.tick, c.noteEnd, hlines, hselects.lines, ?_,
      Chord.isLeast_noteEnd hne, ?_⟩
    · refine ⟨Int.le_max_right _ _, rfl, hjumped.trans hjump, ?_⟩
      rw [hrested, hlanding]
      exact ht.restsFor hrest _
    · refine Chord.leaves_of ht hrest hne (c.sings_elements _ _) ?_
      rw [hsounds.cursor, hself, Chord.cursor_entering, hlanding]

/-- A chord of notes in range is written, if the program of its channel is in range. -/
theorem exists_chord (hrange : 0 ≤ p.recording.programAt c.channel.val c.tick ∧
      p.recording.programAt c.channel.val c.tick ≤ 127)
    (htones : ∀ tone ∈ c.tones, tone.InRange)
    (hdeclared : ∀ id, s.current = some id → id ∈ s.roster.ids) :
    ∃ s', Writes (chord p c.slice c.channel.val c.channel c.tick c.next c.tones) s () s' := by
  obtain ⟨id, s₁, hpart⟩ := exists_partFor hrange s
  have hid := (Score.selects_of_partFor hdeclared hpart).declared
  obtain ⟨_, hentered⟩ := entering_alters (p := p) c hid
  obtain ⟨s', hsound, _⟩ := writes_sound htones (hentered.ids ▸ hid)
    (s₁.jump c.slice id).1 ((s₁.jump c.slice id).2.restUpTo p id c.tick).1
  rw [chord_eq_sound]
  exact ⟨s', Writes.bind hpart (Writes.bind (Writes.of _ s₁) (Writes.bind (Writes.of _ _) hsound))⟩

end Writing

/-- **A chord moves its part by what it writes.** The chord of any notes with the lengths they have
just been given, in any slice and before any next onset, moves its part whenever it is written to a
score whose selected part is declared. It is written if the program of the channel and the
velocities of the notes are in range. -/
theorem Score.chord_moves_part {p : Plan} (ht : p.tables.Proper)
    (hrest : ∃ e ∈ p.tables.rests.entries, p.tables.minRest ≤ e.1) (slice : Slice)
    (channel : Channel) (next : Option Int) {g : Group} (hnotes : g.notes.entries ≠ [])
    (hpitches : ∀ n ∈ g.notes.entries, 0 ≤ n.1 ∧ n.1 ≤ 127) {s : Score}
    (hdeclared : ∀ id, s.current = some id → id ∈ s.roster.ids) :
    let tones := Score.tones p next g
    let c : Chord := { slice, channel, tick := g.tick, next, tones }
    (∀ s', Writes (chord p slice channel.val channel g.tick next tones) s () s' →
        ∃ id, c.Moves p id s s') ∧
      ((0 ≤ p.recording.programAt channel.val g.tick ∧
          p.recording.programAt channel.val g.tick ≤ 127) →
        (∀ n ∈ g.notes.entries, 1 ≤ n.2.velocity ∧ n.2.velocity ≤ 127) →
        ∃ s', Writes (chord p slice channel.val channel g.tick next tones) s () s') := by
  intro tones c
  have hne : c.tones ≠ [] := fun hnil => hnotes ((Writing.tones_eq_nil p next g).mp hnil)
  constructor
  · intro s' hwrites
    refine moves_of_chord ht hrest hne (fun tone htone => ?_) hdeclared hwrites
    obtain ⟨n, hn, rfl⟩ := List.mem_map.mp htone
    exact hpitches n hn
  · intro hrange hvelocities
    refine exists_chord (c := c) hrange (fun tone htone => ?_) hdeclared
    obtain ⟨n, hn, rfl⟩ := List.mem_map.mp htone
    exact ⟨hpitches n hn, hvelocities n hn⟩

/-- Two notes that are held past the end of their slice, on a part that is behind the marker of this
slice: the part jumps and rests, and a quarter rest inside the chord takes it to the end. -/
theorem Score.chord_moves_part_heldPastEnd :
    let p : Plan :=
      { recording := { resolution := 480 }, tables := .ofResolution 480 none, settings := {} }
    let held : Table Int Note := Table.ofList
      [(60, { velocity := 100, offTick := 1920 }), (64, { velocity := 90, offTick := 2400 })]
    let g : Group := { tick := 960, first := ⟨false, some held⟩ }
    let slice : Slice := { beginTick := 480, endTick := 1440 }
    let tones := Score.tones p none g
    let s : Score := { slice := 1, markers := [1] }
    p.tables.Proper ∧ (∃ e ∈ p.tables.rests.entries, p.tables.minRest ≤ e.1) ∧
      g.notes.entries ≠ [] ∧ (∀ n ∈ g.notes.entries, 0 ≤ n.1 ∧ n.1 ≤ 127) ∧
      (∀ id, s.current = some id → id ∈ s.roster.ids) ∧
      ∃ s' id, Writes (chord p slice 0 0 g.tick none tones) s () s' ∧
        s'.lines.toList = [.declare ⟨0, 0⟩, .chord
          { jump := some 1, gap := some "4"
            elements := [.note 0 "c" (some "2"), .note 0 "e" (some "2."), .rest "4"] }] ∧
        (s'.part ⟨0, 0⟩).cursor = 1440 ∧
        Chord.Moves p { slice, channel := 0, tick := g.tick, next := none, tones } id s s' := by
  intro p held g slice tones s
  have ht : p.tables.Proper := ⟨480, none, by decide, rfl⟩
  have hrest : ∃ e ∈ p.tables.rests.entries, p.tables.minRest ≤ e.1 := by decide +kernel
  have hnotes : g.notes.entries ≠ [] := by decide +kernel
  have hpitches : ∀ n ∈ g.notes.entries, 0 ≤ n.1 ∧ n.1 ≤ 127 := by decide +kernel
  have hdeclared : ∀ id, s.current = some id → id ∈ s.roster.ids := by simp [s]
  have hrun : (match (chord p slice 0 0 g.tick none tones).run s with
      | .ok _ s' => decide (s'.lines.toList = [.declare ⟨0, 0⟩, .chord
          { jump := some 1, gap := some "4"
            elements := [.note 0 "c" (some "2"), .note 0 "e" (some "2."), .rest "4"] }] ∧
          (s'.part ⟨0, 0⟩).cursor = 1440)
      | .error _ _ => false) = true := by decide +kernel
  obtain ⟨hmoves, hwritten⟩ :=
    Score.chord_moves_part ht hrest slice 0 none hnotes hpitches hdeclared
  obtain ⟨s', hwrites⟩ := hwritten (by decide +kernel) (by decide +kernel)
  have hresult : (chord p slice 0 0 g.tick none tones).run s = .ok () s' := hwrites
  rw [hresult] at hrun
  obtain ⟨hlines, hcursor⟩ := of_decide_eq_true hrun
  obtain ⟨id, hid⟩ := hmoves s' hwrites
  exact ⟨ht, hrest, hnotes, hpitches, hdeclared, s', id, hwrites, hlines, hcursor, hid⟩

end Transcription
