import Transcription.Proofs.Reading.Clock

/-!
# Reading a chord

A chord lasts as long as its shortest sound: a rest inside the chord if there is one, and the
shortest note if there is none. A reader hears the notes and the rest of a chord with the lengths
they were written with, and afterwards agrees with the part about octave and length.
-/

namespace Transcription

/-! ### How long a chord lasts -/

/-- A tone that can be written and takes up time. -/
structure Score.Tone.Fits (t : LengthTables) (tick : Int) (tone : Score.Tone) : Prop where
  inRange : tone.InRange
  ticks : t.notes.ticks? tone.written.text = some (tone.written.endTick - tick)
  isLength : LengthTable.IsLength tone.written.text
  lasts : tick < tone.written.endTick

/-- A chord of tones that can be written and take up time. -/
structure Chord.Valid (t : LengthTables) (c : Chord) : Prop where
  nonempty : c.tones ≠ []
  fits : ∀ tone ∈ c.tones, tone.Fits t c.tick

namespace Chord

variable {t : LengthTables} {c : Chord}

/-- The shortest note of a chord is one of its notes. -/
theorem min?_endTicks (h : c.tones ≠ []) :
    (c.tones.map (fun tone => tone.written.endTick)).min? = some c.noteEnd := by
  cases hmin : (c.tones.map (fun tone => tone.written.endTick)).min? with
  | none => exact absurd (List.map_eq_nil_iff.mp (List.min?_eq_none_iff.mp hmin)) h
  | some tick => rw [noteEnd, Score.chordEnd, hmin, Option.getD_some]

/-- The notes of a valid chord end after its onset. -/
theorem Valid.tick_lt_noteEnd (h : c.Valid t) : c.tick < c.noteEnd := by
  obtain ⟨hmem, _⟩ := List.min?_eq_some_iff.mp (min?_endTicks h.nonempty)
  obtain ⟨tone, htone, heq⟩ := List.mem_map.mp hmem
  have hlasts := (h.fits tone htone).lasts
  omega

/-- A chord is cut at the next onset or at the end of the slice, if its notes would last longer. -/
theorem cut?_eq_some {cut : Int} (h : c.cut? = some cut) :
    cut < c.noteEnd ∧ (c.next = some cut ∨ c.slice.endTick = cut) := by
  obtain ⟨hmem, _⟩ := List.min?_eq_some_iff.mp h
  obtain ⟨hmem, hlt⟩ := List.mem_filter.mp hmem
  refine ⟨by simpa using hlt, ?_⟩
  rcases List.mem_append.mp hmem with hnext | hend
  · exact .inl (Option.mem_toList.mp hnext)
  · exact .inr (List.mem_singleton.mp hend).symm

/-- A chord is cut if its notes would last beyond the next onset or the end of the slice. -/
theorem exists_cut {tick : Int} (h : c.next = some tick ∨ c.slice.endTick = tick)
    (hlt : tick < c.noteEnd) : ∃ cut, c.cut? = some cut ∧ cut ≤ tick := by
  have hmem : tick ∈ (c.next.toList ++ [c.slice.endTick]).filter (fun t => t < c.noteEnd) := by
    refine List.mem_filter.mpr ⟨?_, by simpa using hlt⟩
    rcases h with hnext | hend
    · exact List.mem_append_left _ (by simp [hnext])
    · exact List.mem_append_right _ (by simp [hend])
  cases hcut : c.cut? with
  | none => exact absurd (List.min?_eq_none_iff.mp hcut) (List.ne_nil_of_mem hmem)
  | some cut => exact ⟨cut, rfl, (List.min?_eq_some_iff.mp hcut).2 tick hmem⟩

/-- With a rest inside, a chord is left at its cut, which is after its onset. -/
theorem leave_of_rest {length : String} (h : c.rest? t = some length) :
    c.cut? = some (c.leave t) ∧ t.restText? (c.leave t - c.tick) = some length ∧
      c.tick < c.leave t := by
  obtain ⟨cut, hcut, htext⟩ := Option.bind_eq_some_iff.mp h
  have hleave : c.leave t = cut := by simp [leave, h, hcut]
  rw [hleave]
  refine ⟨hcut, htext, ?_⟩
  unfold LengthTables.restText? at htext
  split at htext
  · cases htext
  · omega

/-- Without a rest inside, a chord is left at the end of its shortest note. -/
theorem leave_of_no_rest (h : c.rest? t = none) : c.leave t = c.noteEnd := by simp [leave, h]

/-- The ticks that a chord takes up in the text: those of the rest inside, or of the shortest
note. -/
def lasting (t : LengthTables) (c : Chord) : Int :=
  if (c.rest? t).isSome then t.restTicks (c.leave t - c.tick) else c.leave t - c.tick

end Chord

/-! ### The sounds of a chord -/

/-- A tone as a reader hears it. -/
def Score.Tone.sound (tick : Int) (tone : Score.Tone) : Sound :=
  .note tone.pitch tone.written.text (tone.written.endTick - tick)

namespace Chord

variable {t : LengthTables} {c : Chord}

/-- The sounds of a chord: its notes, and the rest inside if there is one. -/
def sounds (t : LengthTables) (c : Chord) : List Sound :=
  c.tones.map (Score.Tone.sound c.tick) ++
    ((c.rest? t).map (fun length => .rest length (t.restTicks (c.leave t - c.tick)))).toList

/-- The shortest sound of a chord is the rest inside if there is one, for this is shorter than all
notes. -/
theorem Valid.min?_ticks (h : c.Valid t) (ht : t.Proper) :
    ((c.sounds t).map Sound.ticks).min? = some (c.lasting t) := by
  obtain ⟨hmem, hleast⟩ := List.min?_eq_some_iff.mp (min?_endTicks h.nonempty)
  have hnote {x : Int} (hx : x ∈ (c.tones.map (Score.Tone.sound c.tick)).map Sound.ticks) :
      c.noteEnd - c.tick ≤ x := by
    rw [List.map_map] at hx
    obtain ⟨tone, htone, rfl⟩ := List.mem_map.mp hx
    have hle := hleast _ (List.mem_map.mpr ⟨tone, htone, rfl⟩)
    simp only [Function.comp_apply, Score.Tone.sound, Sound.ticks]
    omega
  rw [List.min?_eq_some_iff, sounds, List.map_append]
  unfold lasting
  cases hrest : c.rest? t with
  | none =>
    simp only [Option.isSome_none, Bool.false_eq_true, if_false, Option.map_none,
      Option.toList_none, List.map_nil, List.append_nil, leave_of_no_rest hrest]
    refine ⟨?_, fun x hx => hnote hx⟩
    obtain ⟨tone, htone, heq⟩ := List.mem_map.mp hmem
    rw [List.map_map]
    refine List.mem_map.mpr ⟨tone, htone, ?_⟩
    simp only [Function.comp_apply, Score.Tone.sound, Sound.ticks, heq]
  | some length =>
    obtain ⟨hcut, _, hlt⟩ := leave_of_rest hrest
    obtain ⟨hend, _⟩ := cut?_eq_some hcut
    obtain ⟨_, hle⟩ := ht.restTicks_bounds (show 0 ≤ c.leave t - c.tick by omega)
    simp only [Option.isSome_some, if_true, Option.map_some, Option.toList_some, List.map_cons,
      List.map_nil, Sound.ticks]
    refine ⟨List.mem_append_right _ List.mem_cons_self, fun x hx => ?_⟩
    rcases List.mem_append.mp hx with hx | hx
    · have := hnote hx
      omega
    · exact Int.le_of_eq (List.mem_singleton.mp hx).symm

end Chord

/-! ### Reading notes -/

/-- Every pitch has a legible name. -/
theorem Spelling.isName_name (k : KeySignature) (note : Int) : IsName (name k.fifths note) := by
  have hall : ∀ (f : Fin 15) (n : Fin 12),
      IsName ((names ((f.val : Int) - 7)).getD n.val "") := by
    decide +kernel
  have hlow := k.low
  have hhigh := k.high
  have hclass := Int.emod_lt_of_pos note (by decide : (0 : Int) < 12)
  have hname := hall ⟨(k.fifths + 7).toNat, by omega⟩ ⟨(note % 12).toNat, by omega⟩
  have hfifths : (((k.fifths + 7).toNat : Nat) : Int) - 7 = k.fifths := by omega
  simp only [hfifths] at hname
  exact hname

/-- The notes of a chord are legible. -/
theorem PartState.legible_elements (k : KeySignature) {t : LengthTables} {tick : Int}
    {tones : List Score.Tone} (hfits : ∀ tone ∈ tones, tone.Fits t tick) (part : PartState) :
    ∀ e ∈ PartState.elements k.fifths tones part, e.Legible := by
  induction tones generalizing part with
  | nil => simp [PartState.elements]
  | cons tone rest ih =>
    intro e he
    rw [PartState.elements] at he
    rcases List.mem_cons.mp he with rfl | he
    · refine ⟨Spelling.isName_name k tone.pitch, fun l hl => ?_⟩
      split at hl
      · cases hl
      · cases hl
        exact (hfits tone List.mem_cons_self).isLength
    · exact ih (fun tone' h => hfits tone' (List.mem_cons_of_mem _ h)) (part.sing tone) e he

/-- Notes are heard with the pitches and the lengths that they were written with, by a voice that
agrees with the part about octave and length. It agrees with the part afterwards. -/
theorem Voice.sounds?_elements (k : KeySignature) {t : LengthTables} {tick : Int}
    {tones : List Score.Tone} (hfits : ∀ tone ∈ tones, tone.Fits t tick) {part : PartState}
    {v : Voice} (hoctave : v.octave = part.octave) (hlength : v.length = part.length)
    (rests : List Element) :
    v.sounds? t k.fifths (PartState.elements k.fifths tones part ++ rests) =
      (({ octave := (tones.foldl PartState.sing part).octave
          length := (tones.foldl PartState.sing part).length
          position := v.position } : Voice).sounds? t k.fifths rests).map
        (fun x => (tones.map (Score.Tone.sound tick) ++ x.1, x.2)) := by
  induction tones generalizing part v with
  | nil => simp [PartState.elements, ← hoctave, ← hlength]
  | cons tone tones ih =>
    have hfirst := hfits tone List.mem_cons_self
    have hsung : v.octave + (Spelling.octave tone.pitch - part.octave) =
        Spelling.octave tone.pitch := by omega
    let sung : Voice :=
      { v with octave := Spelling.octave tone.pitch, length := tone.written.text }
    have hoctave' : sung.octave = (part.sing tone).octave := rfl
    have hrest := ih (fun tone' h => hfits tone' (List.mem_cons_of_mem _ h)) hoctave' rfl
    rw [PartState.elements, List.cons_append, Voice.sounds?, hlength, part.getD_written, hsung,
      Spelling.pitch?_name, hfirst.ticks]
    simp only [sung] at hrest
    simp only [Option.bind_eq_bind, Option.bind_some, hrest, List.foldl_cons]
    cases Voice.sounds? t k.fifths rests _ with
    | none => rfl
    | some x => rfl

/-! ### Reading chords -/

/-- How far a part has come when it enters a chord: it jumps to the marker of the slice or rests up
to the chord. -/
def Chord.entry (t : LengthTables) (c : Chord) (s : Score) (R : Reading) (id : PartId) : Clock :=
  ((clock s R id).jumpTo c.slice.beginTick (R.mark? s.slice)).restTo t c.tick

/-- What is known of a part after a chord that it enters in some state. -/
def Chord.leaving (t : LengthTables) (c : Chord) (part : PartState) (position : Int) : Voice where
  octave := (c.tones.foldl PartState.sing part).octave
  length := (c.rest? t).getD (c.tones.foldl PartState.sing part).length
  position := position + c.lasting t

section Chords

variable {t : LengthTables} {s : Score} {R : Reading} {c : Chord} {id : PartId}

/-- A rest inside a chord is heard, and the voice keeps its length. -/
theorem Voice.sounds?_rest (ht : t.Proper) (c : Chord) (fifths : Int) (v : Voice) :
    v.sounds? t fifths ((c.rest? t).map Element.rest).toList =
      some (((c.rest? t).map
          (fun length => Sound.rest length (t.restTicks (c.leave t - c.tick)))).toList,
        { v with length := (c.rest? t).getD v.length }) := by
  cases hrest : c.rest? t with
  | none => rfl
  | some length =>
    obtain ⟨_, htext, _⟩ := Chord.leave_of_rest hrest
    obtain ⟨hticks, _⟩ := ht.ticks?_restText htext
    simp [Voice.sounds?, hticks]

/-- A jump and a rest before a chord are read as the part makes them. -/
theorem Agrees.entry (h : Agrees t s R) (ht : t.Proper) (c : Chord) (id : PartId) :
    (R.jump? (c.jump? id s) (R.voice id)).bind
        (Reading.gap? t (t.restText? (c.tick - c.landing id s))) =
      some ⟨(c.entering t id s).octave, (c.entering t id s).length, (c.entry t s R id).position⟩ ∧
    (c.entering t id s).cursor = (c.entry t s R id).cursor ∧
    c.landing id s = ((clock s R id).jumpTo c.slice.beginTick (R.mark? s.slice)).cursor := by
  have hmarked := h.marked s.slice
  have hjump : R.jump? (c.jump? id s) (R.voice id) = some { R.voice id with
      position := ((clock s R id).jumpTo c.slice.beginTick (R.mark? s.slice)).position } ∧
      c.landing id s = ((clock s R id).jumpTo c.slice.beginTick (R.mark? s.slice)).cursor := by
    unfold Chord.jump? Chord.landing Clock.jumpTo clock
    cases hmark : R.mark? s.slice with
    | none =>
      have hnot : s.slice ∉ s.markers := fun hmem => by simp [hmark] at hmarked; exact hmarked hmem
      simp [hnot, Reading.jump?]
    | some position =>
      have hmem : s.slice ∈ s.markers := hmarked.mpr (by simp [hmark])
      by_cases hlt : (s.part id).cursor < c.slice.beginTick
      · simp [hmem, hlt, Reading.jump?, hmark]
      · simp [hlt, Reading.jump?]
  obtain ⟨hjump, hlanding⟩ := hjump
  have hposition := Clock.position_restTo t c.tick
    ((clock s R id).jumpTo c.slice.beginTick (R.mark? s.slice))
  refine ⟨?_, ?_, hlanding⟩
  · rw [← hlanding] at hposition
    rw [hjump, Option.bind_some, Chord.entry, hposition, Chord.entering,
      PartState.octave_advanceTo, PartState.length_advanceTo]
    simp only [PartState.resting, ← h.octave, ← h.length]
    cases htext : t.restText? (c.tick - c.landing id s) with
    | none =>
      rw [LengthTables.restTicks_of_restText?_eq_none htext, Int.add_zero]
      rfl
    | some length =>
      obtain ⟨hticks, _⟩ := ht.ticks?_restText htext
      simp [Reading.gap?, Voice.rest?, hticks]
  · rw [Chord.entry, Clock.cursor_restTo, Chord.cursor_entering, ← hlanding]

/-- A chord is read as its part sounds it. -/
theorem Agrees.chord?_line (h : Agrees t s R) (ht : t.Proper) (hcurrent : s.current = some id)
    (hc : c.Valid t) (attributes : List Attribute) :
    R.chord? t
        { jump := c.jump? id s
          gap := t.restText? (c.tick - c.landing id s)
          attributes
          elements := PartState.elements s.key.fifths c.tones (c.entering t id s) ++
            ((c.rest? t).map Element.rest).toList } =
      some { R.update id (c.leaving t (c.entering t id s) (c.entry t s R id).position) with
        heard := R.heard ++ [⟨id, (c.entry t s R id).position, c.sounds t⟩] } := by
  obtain ⟨hentry, _⟩ := h.entry ht c id
  obtain ⟨v, hjump, hgap⟩ := Option.bind_eq_some_iff.mp hentry
  let entered : Voice :=
    ⟨(c.entering t id s).octave, (c.entering t id s).length, (c.entry t s R id).position⟩
  have hoctave : entered.octave = (c.entering t id s).octave := rfl
  have hsounds := Voice.sounds?_elements s.key hc.fits hoctave rfl
    ((c.rest? t).map Element.rest).toList
  rw [Voice.sounds?_rest ht, Option.map_some] at hsounds
  have hmin := hc.min?_ticks ht
  unfold Chord.sounds at hmin
  simp only [entered] at hsounds
  simp only [Reading.chord?, h.current, hcurrent, h.key, hjump, hgap, hsounds, hmin,
    Option.bind_eq_bind, Option.bind_some, Option.pure_def, Chord.leaving, Chord.sounds]

end Chords

end Transcription
