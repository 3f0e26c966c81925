import Transcription.Proofs.Reading.Contents
import Transcription.Proofs.Reading.Printing
import Transcription.Proofs.Score.Steps

/-!
# The lines of chords

Every chord of a run is written on one line, and no other action writes such a line: a reader hears
as many chords as there are lines of chords. What stands on the line is known from the score before
the chord: the attributes are those that the part writes once it has entered the chord, and the
notes are spelled in the key in force.
-/

namespace Transcription

open Writing

/-- The chord of a line, if the line is one. -/
def Line.chord? : Line → Option ChordLine
  | chord line => some line
  | _ => none

/-- An action with a chord is this chord. -/
theorem Action.eq_chord {a : Action} {c : Chord} (h : a.chord? = some c) : a = .chord c := by
  cases a <;> cases h
  rfl

namespace Score

/-- The chords that are written so far. -/
def chords (s : Score) : List ChordLine := s.lines.toList.filterMap Line.chord?

/-- Some lines are added. -/
def Grows (s s' : Score) : Prop := ∃ new, s'.lines.toList = s.lines.toList ++ new

/-- Lines are only added. -/
theorem Grows.stable : Stable Grows where
  trans := by
    rintro s s' s'' ⟨new, h⟩ ⟨new', h'⟩
    exact ⟨new ++ new', by rw [h', h, List.append_assoc]⟩
  move h _ _ := ⟨[], by rw [h, List.append_nil]⟩
  addLine s line _ := ⟨[line], Array.toList_push⟩
  addNotice s _ _ := ⟨[], (List.append_nil _).symm⟩

end Score

/-- Every action only adds lines. -/
theorem Action.grows {p : Plan} {a : Action} {s s' : Score} (h : Writes (a.write p) s () s') :
    s.Grows s' := by
  by_cases hglobals : ∃ slice, a = .globals slice
  · obtain ⟨slice, rfl⟩ := hglobals
    cases h
    obtain ⟨new, hextends, _⟩ := Score.extends_addGlobals slice s
    exact ⟨new, hextends.lines⟩
  · exact Along.action Score.Grows.stable p (fun slice heq => hglobals ⟨slice, heq⟩) h

/-! ### As many lines as chords are heard -/

namespace Reading

variable {t : LengthTables} {R R' : Reading}

/-- One more chord is heard if a line is a chord, and none otherwise. -/
theorem length_heard_line? {line : Line} (h : R.line? t line = some R') :
    R'.heard.length = R.heard.length + line.chord?.toList.length := by
  cases line with
  | chord line =>
    simp only [line?, chord?, Option.bind_eq_bind, Option.bind_eq_some_iff] at h
    obtain ⟨id, _, v, _, v', _, ⟨sounds, v''⟩, _, shortest, _, h⟩ := h
    cases h
    simp [Line.chord?]
  | blank => cases h; rfl
  | comment slice => cases h; rfl
  | globals settings =>
    obtain ⟨key, hkey⟩ := R.settings_eq settings
    cases (congrArg some hkey).symm.trans h
    rfl
  | declare id =>
    simp only [line?] at h
    split at h
    · cases h
    · cases h; rfl
  | select id =>
    simp only [line?] at h
    split at h
    · cases h; rfl
    · cases h
  | marker slice =>
    obtain ⟨id, _, rfl⟩ := Option.map_eq_some_iff.mp h
    rfl
  | rest length =>
    obtain ⟨id, _, h⟩ := Option.bind_eq_some_iff.mp h
    obtain ⟨v, _, h⟩ := Option.bind_eq_some_iff.mp h
    cases h
    rfl

/-- As many chords are heard as there are lines of chords. -/
theorem length_heard {lines : List Line} (h : R.lines? t lines = some R') :
    R'.heard.length = R.heard.length + (lines.filterMap Line.chord?).length := by
  induction lines generalizing R with
  | nil =>
    cases h
    rfl
  | cons line rest ih =>
    rw [lines?, List.foldlM_cons] at h
    obtain ⟨R₁, hline, hrest⟩ := Option.bind_eq_some_iff.mp h
    have hfirst := length_heard_line? hline
    have hall := ih hrest
    cases hchord : line.chord? with
    | none =>
      rw [List.filterMap_cons_none hchord]
      simp only [hchord, Option.toList_none, List.length_nil] at hfirst
      omega
    | some chord =>
      rw [List.filterMap_cons_some hchord]
      simp only [hchord, Option.toList_some, List.length_singleton] at hfirst
      rw [List.length_cons]
      omega

end Reading

/-- An action that writes no chord lets none be heard. -/
theorem Action.heard_eq {p : Plan} {a : Action} {s s' : Score} {R R' : Reading}
    (h : a.Effect p s R s' R') (hnone : a.chord? = none) : R'.heard = R.heard := by
  cases a with
  | beginSlice slice number => exact h.heard
  | globals slice => exact Still.heard h
  | blank => exact Still.heard h
  | change channel tick => exact Still.heard h
  | chord c => cases hnone

/-- A reader that agrees with a score hears as many chords as are written. -/
theorem Agrees.length_chords {t : LengthTables} {s : Score} {R : Reading} (h : Agrees t s R) :
    s.chords.length = R.heard.length := by
  have hlength := Reading.length_heard h.reads
  rw [show ({} : Reading).heard.length = 0 from rfl, Nat.zero_add] at hlength
  exact hlength.symm

/-- An action that writes no chord writes no line of a chord. -/
theorem Agrees.chords_eq {p : Plan} {a : Action} {s s' : Score} {R R' : Reading}
    (h : Agrees p.tables s R) (h' : Agrees p.tables s' R') (hwrite : Writes (a.write p) s () s')
    (heffect : a.Effect p s R s' R') (hnone : a.chord? = none) : s'.chords = s.chords := by
  obtain ⟨new, hlines⟩ := Action.grows hwrite
  have hchords : s'.chords = s.chords ++ new.filterMap Line.chord? := by
    rw [Score.chords, hlines, List.filterMap_append]
    rfl
  have hlength := h'.length_chords
  rw [Action.heard_eq heffect hnone, ← h.length_chords, hchords, List.length_append] at hlength
  have hnew : new.filterMap Line.chord? = [] := List.eq_nil_of_length_eq_zero (by omega)
  rw [hchords, hnew, List.append_nil]

/-! ### How parts sound their notes -/

namespace Score

/-- Two scores in which every part has the same quantization and the same velocity. -/
def SameManner (s s' : Score) : Prop :=
  ∀ id, (s'.part id).quant = (s.part id).quant ∧ (s'.part id).velocity = (s.part id).velocity

namespace SameManner

variable {s s' s'' : Score}

/-- Nothing changes. -/
theorem refl (s : Score) : SameManner s s := fun _ => ⟨rfl, rfl⟩

/-- Two steps, one after the other. -/
theorem trans (h : SameManner s s') (h' : SameManner s' s'') : SameManner s s'' := fun id =>
  ⟨(h' id).1.trans (h id).1, (h' id).2.trans (h id).2⟩

/-- Nothing changes as long as all parts stay. -/
theorem of_roster (h : s'.roster = s.roster) : SameManner s s' := by
  intro id
  rw [Score.part, Score.part, h]
  exact ⟨rfl, rfl⟩

/-- A step that changes another thing of one part. -/
theorem of_alters {id : PartId} {part : PartState} {n : Int} (h : Alters id part n s s')
    (hquant : part.quant = (s.part id).quant) (hvelocity : part.velocity = (s.part id).velocity) :
    SameManner s s' := by
  intro id'
  rw [Score.part, h.roster, Roster.state_modify]
  split
  · rename_i hid
    rw [hid.1]
    exact ⟨hquant, hvelocity⟩
  · exact ⟨rfl, rfl⟩

/-- A part is declared or selected. -/
theorem change (id : PartId) (s : Score) : SameManner s (s.change id) := by
  intro id'
  have hpart : (s.change id).part id' = s.part id' := s.roster.state_add id id'
  rw [hpart]
  exact ⟨rfl, rfl⟩

end SameManner

end Score

/-- An advance changes the cursor only. -/
@[simp] theorem PartState.quant_advanceTo (part : PartState) (tick : Int) :
    (part.advanceTo tick).quant = part.quant := by
  unfold advanceTo
  split <;> rfl

@[simp] theorem PartState.velocity_advanceTo (part : PartState) (tick : Int) :
    (part.advanceTo tick).velocity = part.velocity := by
  unfold advanceTo
  split <;> rfl

/-- Notes set neither quantization nor velocity. -/
theorem PartState.manner_foldl_sing (tones : List Score.Tone) (part : PartState) :
    (tones.foldl PartState.sing part).quant = part.quant ∧
      (tones.foldl PartState.sing part).velocity = part.velocity := by
  induction tones generalizing part with
  | nil => exact ⟨rfl, rfl⟩
  | cons tone rest ih => exact ih (part.sing tone)

/-! ### The line of a chord -/

/-- A chord on its line. Its part is selected, by a line of its own if need be, and enters the
chord. What the part then writes are the attributes that change, the notes in the key in force, and
a rest if there is one. -/
structure Chord.Lined (p : Plan) (c : Chord) (id : PartId) (line : ChordLine)
    (s entered attributed s' : Score) : Prop where
  declared : id ∈ entered.roster.ids
  entering : s.SameManner entered
  attributes : Writes (Writing.attributes p id c.tones) entered line.attributes attributed
  elements : line.elements = PartState.elements s.key.fifths c.tones (entered.part id) ++
    ((c.rest? p.tables).map Element.rest).toList
  leaving : attributed.SameManner s'
  current : s'.current = some id
  lines : ∃ lead, s'.lines.toList = s.lines.toList ++ (lead ++ [.chord line]) ∧
    (lead = [] ∧ s.current = some id ∨ ∃ switch, lead = [switch] ∧ switch.selects? = some id)

namespace Writing

variable {p : Plan} {c : Chord} {s s' : Score}

/-- Changing to the part for a chord changes neither the key nor how parts sound. -/
theorem manner_of_partFor {id : PartId}
    (h : Writes (partFor p c.channel.val c.channel c.tick) s id s') :
    s.SameManner s' ∧ s'.key = s.key := by
  rcases partFor_cases h with ⟨rfl, _⟩ | ⟨_, rfl⟩
  · exact ⟨Score.SameManner.refl s', rfl⟩
  · exact ⟨Score.SameManner.change id s, rfl⟩

/-- What a part writes once it has entered a chord whose pitches have names. -/
theorem line_of_sound {id : PartId} {jump : Option Int} {gap : Option String}
    (hpitches : ∀ tone ∈ c.tones, 0 ≤ tone.pitch ∧ tone.pitch ≤ 127) (hid : id ∈ s.roster.ids)
    (h : Writes (sound p c id jump gap) s () s') :
    ∃ line attributed, Writes (Writing.attributes p id c.tones) s line.attributes attributed ∧
      line.elements = PartState.elements s.key.fifths c.tones (s.part id) ++
        ((c.rest? p.tables).map Element.rest).toList ∧
      attributed.SameManner s' ∧ s'.lines.toList = s.lines.toList ++ [.chord line] := by
  obtain ⟨attributes, s₁, hattributes, h⟩ := h.exists_bind
  obtain ⟨part, halters₁, hkeeps⟩ := attributes_alters hid hattributes
  have hid₁ : id ∈ s₁.roster.ids := halters₁.ids ▸ hid
  obtain ⟨s₂, hnotes, halters₂⟩ := writes_notes hpitches hid₁
  have helements : PartState.elements s₁.key.fifths c.tones (s₁.part id) =
      PartState.elements s.key.fifths c.tones (s.part id) := by
    rw [halters₁.key, halters₁.part_self hid, hkeeps.elements_eq]
  rw [helements] at hnotes
  obtain ⟨notes, _, hnotes', h⟩ := h.exists_bind
  obtain ⟨rfl, rfl⟩ := hnotes.unique hnotes'
  have hid₂ : id ∈ s₂.roster.ids := halters₂.ids ▸ hid₁
  obtain ⟨hrest, n, halters₃, _⟩ := Score.restInChord_alters p id c s₂
  obtain ⟨rests, s₃, hrests, h⟩ := h.exists_bind
  obtain ⟨hrests, hs₃⟩ := hrests.unique (Writes.of _ s₂)
  have hrests : rests = (((c.rest? p.tables).map Element.rest).toList, c.leave p.tables) :=
    hrests.trans hrest
  have hs₃ : s₃ = (s₂.restInChord p id c.tick c.cut? c.noteEnd).2 := hs₃
  rw [← hs₃] at halters₃
  subst hrests
  obtain ⟨_, rfl⟩ := h.unique (Writes.act _ s₃)
  have hlines : s₃.lines = s.lines := by rw [halters₃.lines, halters₂.lines, halters₁.lines]
  have hleft : s₁.SameManner s₃ := by
    have hnotes := PartState.manner_foldl_sing c.tones (s₁.part id)
    refine (Score.SameManner.of_alters halters₂ hnotes.1 hnotes.2).trans ?_
    exact Score.SameManner.of_alters halters₃ rfl rfl
  let line : ChordLine :=
    { jump, gap, attributes
      elements := PartState.elements s.key.fifths c.tones (s.part id) ++
        ((c.rest? p.tables).map Element.rest).toList }
  refine ⟨line, s₁, hattributes, rfl, hleft.trans ?manner, ?lines⟩
  case manner =>
    have hadvance := Score.advance_alters id (c.leave p.tables) s₃
    have hmoved : s₃.SameManner (s₃.advance id (c.leave p.tables)) :=
      Score.SameManner.of_alters hadvance (by simp) (by simp)
    exact hmoved.trans (Score.SameManner.of_roster rfl)
  case lines =>
    rw [← hlines]
    exact Array.toList_push

end Writing

/-- A valid chord is written on its line. -/
theorem Agrees.lined {p : Plan} {s s' : Score} {R : Reading} (h : Agrees p.tables s R)
    (hp : p.Proper) {c : Chord} (hc : c.Valid p.tables)
    (hwrite : Writes ((Action.chord c).write p) s () s') :
    ∃ id line entered attributed, c.Lined p id line s entered attributed s' := by
  obtain ⟨id, selected, entered, hchorded⟩ := h.chorded hp hc hwrite
  have hid : id ∈ selected.roster.ids := by
    rcases hchorded.part with ⟨hcurrent, _, hextends⟩ | ⟨_, hswitched⟩
    · exact hextends.ids ▸ h.selected id hcurrent
    · rw [hswitched.ids]
      split
      · assumption
      · simp
  -- the part enters the chord and changes its cursor and its length only
  obtain ⟨gap, henter⟩ := hchorded.enters
  obtain ⟨_, henter', halters⟩ := writes_enter hchorded.selects hid
  obtain ⟨_, rfl⟩ := henter.unique henter'
  have hcounted := Score.countTones_alters c.channel.val c.tick c.tones id s
  obtain ⟨hselected, hkey⟩ := manner_of_partFor hchorded.selects
  have hentering : s.SameManner entered := by
    refine (Score.SameManner.of_alters hcounted rfl rfl).trans (hselected.trans ?_)
    refine Score.SameManner.of_alters halters ?_ ?_
    · rw [Chord.entering, PartState.quant_advanceTo, PartState.resting]
    · rw [Chord.entering, PartState.velocity_advanceTo, PartState.resting]
  -- then it sounds the chord
  rw [chord_eq] at hwrite
  obtain ⟨_, _, henter', hsound⟩ := hwrite.exists_bind
  obtain ⟨rfl, rfl⟩ := henter.unique henter'
  have hpitches : ∀ tone ∈ c.tones, 0 ≤ tone.pitch ∧ tone.pitch ≤ 127 := fun tone htone =>
    (hc.fits tone htone).inRange.pitch
  obtain ⟨line, attributed, hattributes, helements, hleaving, hlines⟩ :=
    line_of_sound hpitches (halters.ids ▸ hid) hsound
  rw [halters.key, hkey, hcounted.key] at helements
  refine ⟨id, line, _, attributed, halters.ids ▸ hid, hentering, hattributes, helements, hleaving,
    hchorded.current, ?_⟩
  have hlead := hchorded.approach.lines
  rcases hchorded.part with ⟨hcurrent, _, hextends⟩ | ⟨_, hswitched⟩
  · refine ⟨[], ?_, .inl ⟨rfl, hcurrent⟩⟩
    rw [hlines, hlead, hextends.lines, List.append_nil, List.append_nil, List.nil_append]
  · refine ⟨_, ?_, .inr ⟨if id ∈ s.roster.ids then .select id else .declare id, rfl, ?_⟩⟩
    · rw [hlines, hlead, hswitched.lines, List.append_nil, List.append_assoc]
    · split <;> rfl

/-- The line of a chord is the one that is added to those of chords. -/
theorem Chord.Lined.chords_eq {p : Plan} {c : Chord} {id : PartId} {line : ChordLine}
    {s entered attributed s' : Score} (h : c.Lined p id line s entered attributed s') :
    s'.chords = s.chords ++ [line] := by
  obtain ⟨lead, hlines, hlead⟩ := h.lines
  have hnone : lead.filterMap Line.chord? = [] := by
    rcases hlead with ⟨rfl, _⟩ | ⟨switch, rfl, hswitch⟩
    · rfl
    · cases switch <;> first | rfl | cases hswitch
  rw [Score.chords, hlines, List.filterMap_append, List.filterMap_append, hnone]
  rfl

end Transcription
