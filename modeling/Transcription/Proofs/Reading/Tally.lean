import Transcription.Proofs.Reading.Contents
import Transcription.Proofs.Reading.Printing
import Transcription.Proofs.Score.Counts
import Transcription.Proofs.Score.Steps

/-!
# Statistics and what a reader counts

A reader of a text finds notes and rests in its lines: a rest stands alone, before a chord or inside
one, and a note without a length has that of the note or rest before it in its part. The statistics
count each channel exactly as such a reader does.
-/

namespace Transcription

open Writing

/-! ### Finding notes and rests -/

/-- The notes and rests of a chord on a channel, with the length that its first note inherits. -/
def foundInChord (channel : Channel) : String → List Element → List Found
  | _, [] => []
  | last, .note _ _ length :: rest =>
    ⟨channel, .note, length.getD last⟩ :: foundInChord channel (length.getD last) rest
  | _, .rest length :: rest => ⟨channel, .rest, length⟩ :: foundInChord channel length rest

namespace Reading

variable {t : LengthTables} {R R' : Reading}

/-- The notes and rests that a reader finds in a line of the selected part. -/
def found (R : Reading) (line : Line) : List Found :=
  match R.current, line with
  | some id, .rest length => Found.ofRest id (some length)
  | some id, .chord line => Found.ofRest id line.gap ++
      foundInChord id.channel (line.gap.getD (R.voice id).length) line.elements
  | _, _ => []

/-- Read a line and add what is found in it. -/
def gather? (t : LengthTables) (x : Reading × List Found) (line : Line) :
    Option (Reading × List Found) :=
  (x.1.line? t line).map (fun R => (R, x.2 ++ x.1.found line))

/-- The notes and rests that a reader finds in a text before the statistics. -/
def foundIn? (t : LengthTables) (text : String) : Option (List Found) :=
  ((bodyOf text).foldlM (fun x line => (Line.readChars? line).bind (gather? t x))
    (({}, []) : Reading × List Found)).map Prod.snd

/-- What is found in lines is added to what was found before. -/
theorem foldlM_gather (t : LengthTables) (lines : List Line) (R : Reading) (found : List Found) :
    lines.foldlM (gather? t) (R, found) =
      (lines.foldlM (gather? t) (R, [])).map (fun x => (x.1, found ++ x.2)) := by
  induction lines generalizing R found with
  | nil => simp
  | cons line rest ih =>
    simp only [List.foldlM_cons, gather?]
    cases R.line? t line with
    | none => rfl
    | some R' =>
      simp only [Option.map_some, Option.bind_eq_bind, Option.bind_some, List.nil_append]
      rw [ih R' (found ++ R.found line), ih R' (R.found line), Option.map_map]
      simp [Function.comp_def]

/-- Gathering goes on as reading does. -/
theorem map_fst_foldlM_gather (t : LengthTables) (lines : List Line) (x : Reading × List Found) :
    (lines.foldlM (gather? t) x).map Prod.fst = x.1.lines? t lines := by
  induction lines generalizing x with
  | nil => rfl
  | cons line rest ih =>
    rw [lines?, List.foldlM_cons, List.foldlM_cons, gather?]
    cases x.1.line? t line with
    | none => rfl
    | some R' => exact ih _

/-- Lines in which nothing is found by any reader are read without finding anything. -/
theorem foldlM_gather_silent {lines : List Line} (hread : R.lines? t lines = some R')
    (hsilent : ∀ l ∈ lines, ∀ R : Reading, R.found l = []) :
    lines.foldlM (gather? t) (R, []) = some (R', []) := by
  induction lines generalizing R with
  | nil =>
    cases hread
    rfl
  | cons line rest ih =>
    rw [lines?, List.foldlM_cons] at hread
    obtain ⟨R₁, hline, hrest⟩ := Option.bind_eq_some_iff.mp hread
    rw [List.foldlM_cons, gather?, hline, hsilent line List.mem_cons_self]
    exact ih hrest (fun l hl => hsilent l (List.mem_cons_of_mem _ hl))

end Reading

/-! ### The lengths of what is found -/

/-- The length of a note or a rest is one that the tables have. -/
def Found.InTables (t : LengthTables) (f : Found) : Prop :=
  match f.item with
  | .note => (t.notes.ticks? f.length).isSome
  | .rest => (t.rests.ticks? f.length).isSome

/-- The tokens of a length in the tables are counted as triplets if they are those of triplets. -/
theorem Found.InTables.isTriplet_iff {t : LengthTables} (ht : t.Proper) {f : Found}
    (h : f.InTables t) {token : String} (htoken : token ∈ Length.tokens f.length) :
    Length.isTriplet token = true ↔
      ∃ r ∈ Length.noteRungs, token = Length.tripletToken r.base := by
  unfold InTables at h
  split at h
  · exact ht.notes_ofLadder.isTriplet_iff h htoken
  · exact ht.rests_ofLadder.isTriplet_iff h htoken

/-- The notes and rests of a chord that can be read have lengths in the tables. -/
theorem Voice.inTables_of_sounds? {t : LengthTables} {fifths : Int} {elements : List Element}
    {v : Voice} {read : List Sound × Voice} (h : v.sounds? t fifths elements = some read)
    (channel : Channel) : ∀ f ∈ foundInChord channel v.length elements, f.InTables t := by
  induction elements generalizing v read with
  | nil => simp [foundInChord]
  | cons element rest ih =>
    cases element with
    | note shift name length =>
      obtain ⟨pitch, -, h⟩ := Option.bind_eq_some_iff.mp h
      obtain ⟨ticks, hticks, h⟩ := Option.bind_eq_some_iff.mp h
      obtain ⟨_, hrest, -⟩ := Option.bind_eq_some_iff.mp h
      exact List.forall_mem_cons.mpr ⟨Option.isSome_of_eq_some hticks, ih hrest⟩
    | rest length =>
      obtain ⟨ticks, hticks, h⟩ := Option.bind_eq_some_iff.mp h
      obtain ⟨_, hrest, -⟩ := Option.bind_eq_some_iff.mp h
      exact List.forall_mem_cons.mpr ⟨Option.isSome_of_eq_some hticks, ih hrest⟩

/-- A rest that can be read has a length in the tables. -/
theorem Voice.inTables_of_rest? {t : LengthTables} {length : String} {v v' : Voice}
    (h : v.rest? t length = some v') (id : PartId) :
    v'.length = length ∧ ∀ f ∈ Found.ofRest id (some length), f.InTables t := by
  obtain ⟨ticks, hticks, rfl⟩ := Option.map_eq_some_iff.mp h
  refine ⟨rfl, fun f hf => ?_⟩
  cases List.mem_singleton.mp hf
  exact Option.isSome_of_eq_some hticks

namespace Reading

variable {t : LengthTables} {R R' : Reading}

/-- What is found in the line of a chord that can be read has lengths in the tables. -/
theorem inTables_of_chord? {line : ChordLine} (h : R.chord? t line = some R') :
    ∀ f ∈ R.found (.chord line), f.InTables t := by
  obtain ⟨id, hcurrent, h⟩ := Option.bind_eq_some_iff.mp h
  obtain ⟨v, hjump, h⟩ := Option.bind_eq_some_iff.mp h
  obtain ⟨v', hgap, h⟩ := Option.bind_eq_some_iff.mp h
  obtain ⟨_, hsounds, -⟩ := Option.bind_eq_some_iff.mp h
  have hlength : v.length = (R.voice id).length := by
    unfold jump? at hjump
    split at hjump
    · cases hjump
      rfl
    · obtain ⟨_, -, rfl⟩ := Option.map_eq_some_iff.mp hjump
      rfl
  have hentered : v'.length = line.gap.getD (R.voice id).length ∧
      ∀ f ∈ Found.ofRest id line.gap, f.InTables t := by
    cases hrest : line.gap with
    | none =>
      rw [hrest] at hgap
      cases hgap
      exact ⟨hlength, by simp [Found.ofRest]⟩
    | some length =>
      rw [hrest] at hgap
      exact Voice.inTables_of_rest? hgap id
  simp only [found, hcurrent, ← hentered.1]
  exact List.forall_mem_append.mpr ⟨hentered.2, Voice.inTables_of_sounds? hsounds id.channel⟩

/-- What is found in a line that can be read has lengths in the tables. -/
theorem inTables_of_line? {line : Line} (h : R.line? t line = some R') :
    ∀ f ∈ R.found line, f.InTables t := by
  cases line with
  | rest length =>
    obtain ⟨id, hcurrent, h⟩ := Option.bind_eq_some_iff.mp h
    obtain ⟨v, hrest, -⟩ := Option.bind_eq_some_iff.mp h
    simpa only [found, hcurrent] using (Voice.inTables_of_rest? hrest id).2
  | chord line => exact inTables_of_chord? h
  | _ => simp [found]

/-- What a reader finds in a text has lengths in the tables. -/
theorem inTables_of_foundIn? {text : String} {found : List Found}
    (h : foundIn? t text = some found) : ∀ f ∈ found, f.InTables t := by
  obtain ⟨last, hread, rfl⟩ := Option.map_eq_some_iff.mp h
  have hstart : ∀ f ∈ (({}, []) : Reading × List Found).2, f.InTables t := by simp
  generalize (({}, []) : Reading × List Found) = start at hread hstart
  generalize bodyOf text = lines at hread
  induction lines generalizing start with
  | nil => exact Option.some.inj hread ▸ hstart
  | cons line rest ih =>
    rw [List.foldlM_cons] at hread
    obtain ⟨next, hnext, hrest⟩ := Option.bind_eq_some_iff.mp hread
    obtain ⟨line, -, hgather⟩ := Option.bind_eq_some_iff.mp hnext
    obtain ⟨_, hline, rfl⟩ := Option.map_eq_some_iff.mp hgather
    exact ih _ (List.forall_mem_append.mpr ⟨hstart, inTables_of_line? hline⟩) hrest

end Reading

/-- The lines that are added between two scores that a reader agrees with are read. -/
theorem Agrees.lines?_new {t : LengthTables} {s s' : Score} {R R' : Reading} (h : Agrees t s R)
    (h' : Agrees t s' R') {new : List Line} (hlines : s'.lines.toList = s.lines.toList ++ new) :
    R.lines? t new = some R' := by
  have hread := h'.reads
  rw [Reading.ofLines?, hlines, Reading.lines?, List.foldlM_append] at hread
  obtain ⟨R₁, hold, hnew⟩ := Option.bind_eq_some_iff.mp hread
  cases h.reads.symm.trans hold
  exact hnew

/-! ### Chords -/

/-- The notes of a chord are found as its part writes them. -/
theorem foundInChord_elements (channel : Channel) (fifths : Int) (tones : List Score.Tone)
    (part : PartState) (rests : List Element) :
    foundInChord channel part.length (PartState.elements fifths tones part ++ rests) =
      Found.ofTones channel tones ++
        foundInChord channel (tones.foldl PartState.sing part).length rests := by
  induction tones generalizing part with
  | nil => rfl
  | cons tone tones ih =>
    rw [PartState.elements, List.cons_append, foundInChord, part.getD_written]
    exact congrArg _ (ih (part.sing tone))

/-- The rest inside a chord is found. -/
theorem foundInChord_rest (id : PartId) (last : String) (length : Option String) :
    foundInChord id.channel last (length.map Element.rest).toList = Found.ofRest id length := by
  cases length <;> rfl

/-! ### Scores whose counts are found -/

/-- A score whose statistics count what a reader finds in its lines. -/
def Tallied (t : LengthTables) (s : Score) : Prop :=
  ∃ R found, s.lines.toList.foldlM (Reading.gather? t) ({}, []) = some (R, found) ∧
    Score.Counts found {} s

namespace Tallied

variable {t : LengthTables} {p : Plan} {s s' : Score} {R R' : Reading}

/-- Nothing is written, and nothing is found. -/
theorem start (t : LengthTables) : Tallied t {} := ⟨{}, [], rfl, Score.Counts.refl {}⟩

/-- Lines are added, and what is found in them is counted. -/
theorem extend (h : Tallied t s) (hagrees : Agrees t s R) {new : List Line}
    (hlines : s'.lines.toList = s.lines.toList ++ new) {found : List Found}
    (hnew : new.foldlM (Reading.gather? t) (R, []) = some (R', found))
    (hcounts : Score.Counts found s s') : Tallied t s' := by
  obtain ⟨R₀, before, hbefore, hcounted⟩ := h
  have hread := Reading.map_fst_foldlM_gather t s.lines.toList ({}, [])
  rw [hbefore] at hread
  have hsame : R₀ = R := Option.some.inj (hread.trans hagrees.reads)
  refine ⟨R', before ++ found, ?_, hcounted.trans hcounts⟩
  rw [hlines, List.foldlM_append, hbefore, hsame, Option.bind_eq_bind, Option.bind_some,
    Reading.foldlM_gather, hnew, Option.map_some]

/-- One line is added, and what is found in it is counted. -/
theorem sing (h : Tallied t s) (hagrees : Agrees t s R) (hagrees' : Agrees t s' R') {line : Line}
    (hlines : s'.lines.toList = s.lines.toList ++ [line])
    (hcounts : Score.Counts (R.found line) s s') : Tallied t s' := by
  have hline : R.line? t line = some R' := by
    simpa [Reading.lines?] using hagrees.lines?_new hagrees' hlines
  have hnew : [line].foldlM (Reading.gather? t) (R, []) = some (R', R.found line) := by
    simp [Reading.gather?, hline]
  exact h.extend hagrees hlines hnew hcounts

/-- Lines without notes and rests are added, and nothing is counted. -/
theorem silent (h : Tallied t s) (hagrees : Agrees t s R) (hagrees' : Agrees t s' R')
    {new : List Line} (hlines : s'.lines.toList = s.lines.toList ++ new)
    (hsilent : ∀ l ∈ new, ∀ R : Reading, R.found l = []) (hcounts : Score.Counts [] s s') :
    Tallied t s' :=
  h.extend hagrees hlines
    (Reading.foldlM_gather_silent (hagrees.lines?_new hagrees' hlines) hsilent) hcounts

/-- Nothing is written and nothing is counted. -/
theorem still (h : Tallied t s) (hagrees : Agrees t s R) (hlines : s'.lines = s.lines)
    (hcounts : Score.Counts [] s s') : Tallied t s' :=
  h.extend hagrees (by rw [hlines, List.append_nil]) rfl hcounts

/-- A line without notes and rests is added. -/
theorem addLine (h : Tallied t s) (hagrees : Agrees t s R) {line : Line}
    (hagrees' : Agrees t (s.addLine line) R') (hsilent : ∀ R : Reading, R.found line = []) :
    Tallied t (s.addLine line) :=
  h.silent hagrees hagrees' Array.toList_push
    (fun _ hl R => List.mem_singleton.mp hl ▸ hsilent R) (Score.Counts.still rfl rfl)

/-- A declared part is selected. -/
theorem select (h : Tallied t s) (hagrees : Agrees t s R) {id : PartId}
    (hid : id ∈ s.roster.ids) : Tallied t (s.select id) := by
  refine h.silent hagrees (hagrees.select hid) (Score.Extends.select id s).lines ?_
    (Score.counts_select id s)
  intro l hl R
  split at hl
  · cases hl
  · cases List.mem_singleton.mp hl
    simp [Reading.found]

/-- A part rests on a line of its own. -/
theorem restLine (h : Tallied p.tables s) (hagrees : Agrees p.tables s R) (hp : p.Proper)
    {id : PartId} (hid : id ∈ s.roster.ids) {tick : Int} (hlt : (s.part id).cursor < tick) :
    Tallied p.tables (s.restLine p id tick) := by
  obtain ⟨R', hagrees', _⟩ := hagrees.restLine hp hid hlt
  have hselected := hagrees.select hid
  have hrest := Score.counts_rest hp.tables id (tick - (s.part id).cursor) (s.part id).cursor
    (s.select id)
  obtain ⟨htext, halters⟩ :=
    Score.rest_alters p id (tick - (s.part id).cursor) (s.part id).cursor (s.select id)
  rw [← htext] at hrest
  have heq : s.restLine p id tick =
      ((((s.select id).rest p id (tick - (s.part id).cursor) (s.part id).cursor).2.addRest
        ((s.select id).rest p id (tick - (s.part id).cursor) (s.part id).cursor).1).advance
          id tick) := rfl
  generalize (s.select id).rest p id (tick - (s.part id).cursor) (s.part id).cursor = x
    at hrest halters heq
  obtain ⟨text, s₁⟩ := x
  have hlines : (s.restLine p id tick).lines.toList =
      (s.select id).lines.toList ++ (text.map Line.rest).toList := by
    rw [heq, ← halters.lines]
    exact (Score.Extends.addRest text s₁).lines
  have hcounts : Score.Counts (Found.ofRest id text) (s.select id) (s.restLine p id tick) := by
    have hadded : Score.Counts [] s₁ (s₁.addRest text) := by
      cases text with
      | none => exact Score.Counts.refl s₁
      | some length => exact Score.Counts.still rfl rfl
    rw [heq]
    simpa using (hrest.trans hadded).trans (Score.Counts.advance id tick _)
  have htallied := h.select hagrees hid
  cases text with
  | none =>
    exact htallied.silent hselected hagrees' hlines (fun l hl => absurd hl List.not_mem_nil) hcounts
  | some length => exact htallied.sing hselected hagrees' hlines hcounts

/-- A part may rest before a slice. -/
theorem restBeforeSlice (h : Tallied p.tables s) (hagrees : Agrees p.tables s R) (hp : p.Proper)
    (current : Slice) : Tallied p.tables (s.restBeforeSlice p current) := by
  rcases s.restBeforeSlice_cases p current with heq | ⟨id, hid, hlt, heq⟩
  · rw [heq]
    exact h
  · rw [heq]
    exact h.restLine hagrees hp hid hlt

/-- The begin of a slice is marked, or it is noticed that it has no marker. -/
theorem mark (h : Tallied t s) (hagrees : Agrees t s R) (current : Slice) :
    Tallied t (s.mark current) := by
  by_cases hthere : ∃ e, s.roster.furthest? = some e ∧ e.2.cursor = current.beginTick
  · obtain ⟨e, hfurthest, hat⟩ := hthere
    obtain ⟨hid, _⟩ := Roster.mem_of_furthest? hfurthest
    obtain ⟨R', hagrees', _⟩ := hagrees.markSlice current
    rw [Score.mark_of_furthest hfurthest hat] at hagrees' ⊢
    exact (h.select hagrees hid).silent (hagrees.select hid) hagrees' Array.toList_push
      (fun l hl R => by cases List.mem_singleton.mp hl; simp [Reading.found])
      (Score.Counts.still rfl rfl)
  · rw [Score.mark_of_not hthere]
    exact h.still hagrees rfl (Score.Counts.addNotice (by rintro _ _ ⟨⟩) s)

/-- A slice is begun. -/
theorem beginSlice (h : Tallied p.tables s) (hagrees : Agrees p.tables s R) (hp : p.Proper)
    (current : Slice) (number : Int) : Tallied p.tables (s.beginSlice p current number) := by
  obtain ⟨R₁, hagrees₁, _⟩ := hagrees.announceSlice hp current number
  have hannounced : Tallied p.tables (s.announceSlice p current number) := by
    have hagrees₀ : Agrees p.tables { s with slice := number } R :=
      hagrees.congr rfl rfl rfl rfl rfl rfl
    have hnumber : Tallied p.tables { s with slice := number } :=
      h.still hagrees rfl (Score.Counts.still rfl rfl)
    unfold Score.announceSlice
    by_cases hpos : 0 < number
    · obtain ⟨_, hrested, _⟩ := hagrees₀.restBeforeSlice hp current hpos
      simp only [hpos, if_true]
      exact (hnumber.restBeforeSlice hagrees₀ hp current).mark hrested current
    · simp only [hpos, if_false]
      exact hnumber
  have hagrees₂ : Agrees p.tables ((s.announceSlice p current number).addLine .blank) R₁ :=
    hagrees₁.addSilent trivial rfl
  have hblank := hannounced.addLine hagrees₁ hagrees₂ (fun R => by simp [Reading.found])
  rw [Score.beginSlice_eq]
  split
  · have hagrees₃ : Agrees p.tables
        (((s.announceSlice p current number).addLine .blank).addLine (.comment number)) R₁ :=
      hagrees₂.addSilent trivial rfl
    exact hblank.addLine hagrees₂ hagrees₃ (fun R => by simp [Reading.found])
  · exact hblank

/-- The global settings of a slice are written. -/
theorem addGlobals (h : Tallied t s) (hagrees : Agrees t s R) (current : Slice) :
    Tallied t (s.addGlobals current) := by
  obtain ⟨R', hagrees', _⟩ := hagrees.addGlobals current
  have hkey : (s.changeKey current).2.lines = s.lines ∧
      Score.Counts [] s (s.changeKey current).2 := by
    unfold Score.changeKey
    split
    · exact ⟨rfl, Score.Counts.refl s⟩
    · split
      · exact ⟨rfl, Score.Counts.still rfl rfl⟩
      · exact ⟨rfl, Score.Counts.addNotice (by rintro _ _ ⟨⟩; rfl) s⟩
  obtain ⟨hlines, hcounts⟩ := hkey
  simp only [Score.addGlobals] at hagrees' ⊢
  split
  · exact h.still hagrees hlines hcounts
  · rename_i hsome
    rw [if_neg hsome] at hagrees'
    have hpush : ((s.changeKey current).2.addLine (.globals
        ((s.changeKey current).1 ++ Score.tempoSetting current))).lines.toList = s.lines.toList ++
          [.globals ((s.changeKey current).1 ++ Score.tempoSetting current)] := by
      rw [← hlines]
      exact Array.toList_push
    refine h.silent hagrees hagrees' hpush (fun l hl R => ?_)
      (hcounts.trans (Score.Counts.still rfl rfl))
    cases List.mem_singleton.mp hl
    simp [Reading.found]

/-- A part is declared or selected for its channel. -/
theorem change (h : Tallied t s) (hagrees : Agrees t s R) (id : PartId) :
    Tallied t (s.change id) := by
  refine h.silent hagrees (hagrees.change id) (Score.switched_change id s).lines ?_
    (Score.Counts.still rfl rfl)
  intro l hl R
  cases List.mem_singleton.mp hl
  split <;> simp [Reading.found]

end Tallied

/-! ### Chords in their lines -/

/-- The part for a chord is selected by lines without notes and rests. -/
theorem Score.exists_lead {p : Plan} {channel : Channel} {tick : Int} {id : PartId}
    {s s' : Score} (h : Writes (partFor p channel.val channel tick) s id s') :
    ∃ lead, s'.lines.toList = s.lines.toList ++ lead ∧
      ∀ l ∈ lead, ∀ R : Reading, R.found l = [] := by
  rcases partFor_cases h with ⟨rfl, _⟩ | ⟨_, rfl⟩
  · exact ⟨[], (List.append_nil _).symm, by simp⟩
  · refine ⟨_, (switched_change id s).lines, fun l hl R => ?_⟩
    cases List.mem_singleton.mp hl
    split <;> simp [Reading.found]

/-- The notes of a chord and the rests before and inside it are found in its line. -/
theorem Agrees.found_chord {t : LengthTables} {s : Score} {R : Reading} (h : Agrees t s R)
    {id : PartId} (hcurrent : s.current = some id) (c : Chord) (attributes : List Attribute) :
    R.found (.chord
        { jump := c.jump? id s
          gap := t.restText? (c.tick - c.landing id s)
          attributes
          elements := PartState.elements s.key.fifths c.tones (c.entering t id s) ++
            ((c.rest? t).map Element.rest).toList }) =
      Found.ofRest id (t.restText? (c.tick - c.landing id s)) ++
        (Found.ofTones id.channel c.tones ++ Found.ofRest id (c.rest? t)) := by
  have hlast : (t.restText? (c.tick - c.landing id s)).getD (R.voice id).length =
      (c.entering t id s).length := by
    rw [Chord.entering, PartState.length_advanceTo, PartState.resting, h.length]
  simp only [Reading.found, h.current, hcurrent, hlast, foundInChord_elements, foundInChord_rest]

/-- A chord is written, and its notes and rests are found in its line. -/
theorem Tallied.chord {p : Plan} {s s' : Score} {R R' : Reading} (h : Tallied p.tables s)
    (hagrees : Agrees p.tables s R) (hp : p.Proper) {c : Chord} (hc : c.Valid p.tables)
    (htied : ∀ tone ∈ c.tones, tone.Tied)
    (hwrite : Writes ((Action.chord c).write p) s () s') (hagrees' : Agrees p.tables s' R') :
    Tallied p.tables s' := by
  obtain ⟨hcounted, _⟩ := hagrees.countTones c
  obtain ⟨hextends, _⟩ := s.extends_countTones c.channel.val c.tick c.tones
  obtain ⟨id, s₁, R₁, hchannel, hpart, hagrees₁, _, hcurrent⟩ :=
    hcounted.partFor hp c.channel c.tick
  obtain ⟨entered, henter, hentered⟩ := writes_enter hpart (hagrees₁.selected id hcurrent)
  have hid : id ∈ entered.roster.ids := hentered.ids ▸ hagrees₁.selected id hcurrent
  obtain ⟨s₂, hsound, hsounds⟩ := writes_sound (p := p)
    (fun tone htone => (hc.fits tone htone).inRange) hid
    (c.jump? id s₁) (p.tables.restText? (c.tick - c.landing id s₁))
  obtain ⟨_, rfl⟩ := hwrite.unique (writes_chord henter hsound)
  obtain ⟨attributes, hline⟩ := hsounds.line
  rw [hentered.lines, hentered.key, hentered.part_self (hagrees₁.selected id hcurrent)] at hline
  -- the lines by which the part is selected are silent, and the last line is that of the chord
  obtain ⟨lead, hlead, hsilent⟩ := Score.exists_lead hpart
  have hfound := hagrees₁.found_chord hcurrent c attributes
  generalize Line.chord _ = line at hline hfound
  have hlast : s'.lines.toList = s₁.lines.toList ++ [line] := by
    rw [hline]
    exact Array.toList_push
  have hread : R₁.line? p.tables line = some R' := by
    simpa [Reading.lines?] using hagrees₁.lines?_new hagrees' hlast
  have hlines : s'.lines.toList = s.lines.toList ++ (lead ++ [line]) := by
    rw [hlast, hlead, hextends.lines, List.append_nil, List.append_assoc]
  have hnew : (lead ++ [line]).foldlM (Reading.gather? p.tables) (R, []) =
      some (R', R₁.found line) := by
    rw [List.foldlM_append,
      Reading.foldlM_gather_silent (hcounted.lines?_new hagrees₁ hlead) hsilent]
    simp [Reading.gather?, hread]
  refine h.extend hagrees hlines hnew ?_
  have hcounts := (counts_enter hp htied henter).trans (counts_sound hp.tables hsound)
  rw [hfound, hchannel]
  refine hcounts.perm ?_
  rw [← List.append_assoc]
  exact List.perm_append_comm.append_right _

/-! ### Runs -/

/-- Every action counts what is found in its lines. -/
theorem Tallied.perform {p : Plan} {s s' : Score} {R R' : Reading} (h : Tallied p.tables s)
    (hagrees : Agrees p.tables s R) (hp : p.Proper) {a : Action} (ha : a.Valid p.tables)
    (htied : ∀ c, a = .chord c → ∀ tone ∈ c.tones, tone.Tied)
    (hwrite : Writes (a.write p) s () s') (hagrees' : Agrees p.tables s' R') :
    Tallied p.tables s' := by
  cases a with
  | beginSlice slice number =>
    obtain ⟨_, rfl⟩ := hwrite.unique (Writes.act _ s)
    exact h.beginSlice hagrees hp slice number
  | globals slice =>
    obtain ⟨_, rfl⟩ := hwrite.unique (Writes.act _ s)
    exact h.addGlobals hagrees slice
  | blank =>
    obtain ⟨_, rfl⟩ := hwrite.unique (Writes.act _ s)
    exact h.addLine hagrees hagrees' (fun R => by simp [Reading.found])
  | change channel tick =>
    obtain ⟨_, rfl⟩ := hwrite.unique
      (Writes.bind (writes_changePart hp channel tick s) (Writes.pure () _))
    exact h.change hagrees _
  | chord c => exact h.chord hagrees hp ha (htied c rfl) hwrite hagrees'

/-- The tones of a transcription are tied from tokens. -/
theorem Plan.tied_actions {p : Plan} (hp : p.tables.Proper) {slices : List Slice} {c : Chord}
    (h : .chord c ∈ p.actions slices) : ∀ tone ∈ c.tones, tone.Tied := by
  rw [actions_eq] at h
  obtain ⟨s, _, h⟩ := List.mem_flatMap.mp h
  rw [sliceActions_eq, List.mem_cons] at h
  rcases h with h | h
  · cases h
  · rcases mem_content h with heq | heq | ⟨_, _, heq⟩ | ⟨channel, g, _, _, heq⟩ <;> cases heq
    exact Score.tied_tones hp _ g

/-- The statistics of a score count what a reader finds in its lines. -/
theorem Plan.tallied_score {p : Plan} (hp : p.Proper) {slices : List Slice}
    (hslices : p.recording.HasSlices slices) {s : Score} (hscore : p.score slices = .ok s) :
    Tallied p.tables s := by
  have hvalid := valid_actions hp hslices
  obtain ⟨s', _, hwrite, _, htallied⟩ := @Agrees.run_done p hp _ hvalid
    (fun _ s _ => Tallied p.tables s) (Tallied.start p.tables)
    (fun {_ a _ _ _ _ _} hsplit hagrees htallied hwrite hagrees' _ => by
      have hmem : a ∈ p.actions slices := by rw [hsplit]; simp
      exact htallied.perform hagrees hp (hvalid a hmem)
        (fun c hc => tied_actions hp.tables (hc ▸ hmem)) hwrite hagrees')
    _ _ (List.append_nil _).symm
  obtain ⟨_, rfl⟩ := hwrite.unique (Plan.score_eq_ok.mp hscore)
  exact htallied

/-! ### Texts and statistics -/

/-- What a reader finds in the text of a score is what it finds in the lines of the score. -/
theorem Plan.foundIn?_textOf (p : Plan) (t : LengthTables) {s : Score} (h : s.Paged) :
    Reading.foundIn? t (p.textOf s) =
      (s.lines.toList.foldlM (Reading.gather? t) ({}, [])).map Prod.snd := by
  have hblank (x : Reading × List Found) : Reading.gather? t x .blank = some x := by
    simp [Reading.gather?, Reading.line?, Reading.found]
  exact congrArg _ (p.foldlM_bodyOf_textOf h hblank ({}, []))

namespace Recording

/-- Cutting a recording warns of nothing that is too short. -/
theorem countP_cutWarnings (r : Recording) (channel : Channel) :
    r.cutWarnings.countP (Warning.isShortage channel) = 0 := by
  refine List.countP_eq_zero.mpr (fun w hw => ?_)
  simp [Warning.isShortage, kind_of_mem_cutWarnings hw]

/-- **The statistics are what a reader counts.** A recording that is read from a document has a
transcript under any settings. A reader finds notes and rests in its text, each with its length, and
on every channel the statistics have as many notes and rests, tokens in their lengths and triplets
among these tokens; a token is a triplet exactly if it is that of the triplet of a base length. The
skipped rests of a channel are the warnings that something on it is too short, and every total is
the sum over all channels. -/
theorem statistics_as_read {document : Json} {r : Recording}
    (hdocument : ofDocument document = .ok r) (settings : Settings) :
    ∃ t found, r.transcribe settings = .ok t ∧
      Reading.foundIn? (Plan.of r settings).tables t.text = some found ∧
      (∀ f ∈ found, ∀ token ∈ Length.tokens f.length, Length.isTriplet token = true ↔
        ∃ r ∈ Length.noteRungs, token = Length.tripletToken r.base) ∧
      (∀ channel : Channel, t.statistics.channel channel.val =
        { Counters.ofFound channel found with
          restsSkipped := t.warnings.countP (Warning.isShortage channel) }) ∧
      ∀ counter, t.statistics.total.get counter =
        ∑ channel : Channel, (t.statistics.channel channel.val).get counter := by
  have hbuilt := ofDocument_built hdocument
  obtain ⟨slices, s, _, hslices, hhas, hscore, _, hpaged⟩ := exists_paged hbuilt settings
  have hproper := Plan.proper_of hbuilt.wellFormed settings
  obtain ⟨_, found, hfound, hcounts⟩ := Plan.tallied_score hproper hhas hscore
  have htext := (Plan.of r settings).foundIn?_textOf (Plan.of r settings).tables hpaged
  rw [hfound, Option.map_some] at htext
  have htables := Reading.inTables_of_foundIn? htext
  refine ⟨_, found, bind_eq_ok.mpr ⟨slices, hslices, bind_eq_ok.mpr ⟨s, hscore, rfl⟩⟩, htext,
    fun f hf _ htoken => (htables f hf).isTriplet_iff hproper.tables htoken,
    fun channel => ?_, hcounts.balanced .empty⟩
  have hwarnings : (r.cutWarnings ++ s.warnings).countP (Warning.isShortage channel) =
      s.warnings.countP (Warning.isShortage channel) := by
    rw [List.countP_append, countP_cutWarnings, Nat.zero_add]
  exact (hcounts.channel_eq channel).trans (by rw [← hwarnings]; rfl)

/-- The statistics of two channels with an inherited length, a rest before a slice, one inside a
chord and one that is too short. -/
theorem statistics_as_read_two_channels :
    ∃ r t found, ofDocument (.ofSequence
        [("0", [(0, 60, 600), (0, 64, 600), (601, 64, 80), (680, 67, 480)]),
          ("3", [(0, 48, 960)])]
        [(1440, 90)]) = .ok r ∧
      r.transcribe {} = .ok t ∧ Reading.foundIn? (Plan.of r {}).tables t.text = some found ∧
      t.statistics.total = ⟨5, 2, 1, 7, 4, 1, 1⟩ ∧
      (∀ f ∈ found, ∀ token ∈ Length.tokens f.length, Length.isTriplet token = true ↔
        ∃ r ∈ Length.noteRungs, token = Length.tripletToken r.base) ∧
      (∀ channel : Channel, t.statistics.channel channel.val =
        { Counters.ofFound channel found with
          restsSkipped := t.warnings.countP (Warning.isShortage channel) }) ∧
      ∀ counter, t.statistics.total.get counter =
        ∑ channel : Channel, (t.statistics.channel channel.val).get counter := by
  obtain ⟨r, hdocument, htotal⟩ := exists_eq_ok
    (show (ofDocument (.ofSequence
      [("0", [(0, 60, 600), (0, 64, 600), (601, 64, 80), (680, 67, 480)]),
        ("3", [(0, 48, 960)])]
      [(1440, 90)])).toOption.any (fun r =>
        (r.transcribe {}).toOption.map (fun t => t.statistics.total) =
          some ⟨5, 2, 1, 7, 4, 1, 1⟩) = true by decide +kernel)
  obtain ⟨t, found, htranscribe, hfound, hcounted⟩ := statistics_as_read hdocument {}
  refine ⟨r, t, found, hdocument, htranscribe, hfound, ?_, hcounted⟩
  simpa [htranscribe, Except.toOption] using htotal

end Recording

end Transcription
