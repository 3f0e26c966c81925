import Transcription.Proofs.Length.Checked
import Transcription.Proofs.Reading.ChordLines
import Transcription.Proofs.Reading.RoundTrip

/-!
# How a reader hears the chords

A text tells how a part sounds its notes only where that changes, on the lines of its chords. A
reader who keeps the last quantization and the last volume of every part hears each chord with those
of its lowest note, whatever parts, slices and jumps lie between the chords of a part.
-/

namespace Transcription

open Writing

/-! ### What a reader keeps -/

/-- How a part sounds its notes: the pressed share of their length and their volume, in percent. -/
structure Manner where
  /-- The pressed share. -/
  quant : Int := 90
  /-- The volume. -/
  volume : Int := 79
  deriving DecidableEq

/-- A setting of a part comes into force. -/
def Manner.change (m : Manner) : Attribute → Manner
  | .quant percent => { m with quant := percent }
  | .volume percent => { m with volume := percent }

/-- What a line says about how parts sound. -/
inductive Cue where
  /-- A part is declared or selected. -/
  | part (id : PartId)
  /-- The selected part sounds a chord, after some settings. -/
  | chord (attributes : List Attribute)

/-- What a line says about how parts sound, if it says something. -/
def Line.cue? : Line → Option Cue
  | declare id => some (.part id)
  | select id => some (.part id)
  | chord line => some (.chord line.attributes)
  | _ => none

/-- What a reader keeps who listens to how parts sound. -/
structure Listener where
  /-- The selected part. -/
  current : Option PartId := none
  /-- How each part sounds. -/
  manner : PartId → Manner := fun _ => {}
  /-- The chords so far, each with its part and how it sounded. -/
  heard : List (PartId × Manner) := []

namespace Listener

/-- Listen to one more cue. -/
def hear (L : Listener) : Cue → Listener
  | .part id => { L with current := some id }
  | .chord attributes =>
    match L.current with
    | none => L
    | some id =>
      let manner := attributes.foldl Manner.change (L.manner id)
      { L with manner := Function.update L.manner id manner, heard := L.heard ++ [(id, manner)] }

/-- Listen to lines, one after the other. -/
def hearLines (L : Listener) (lines : List Line) : Listener :=
  (lines.filterMap Line.cue?).foldl hear L

/-- Listen to a text from its start. -/
def ofText (text : String) : Listener :=
  ((linesOf text).filterMap (fun line => (Line.readChars? line).bind Line.cue?)).foldl hear {}

variable (L : Listener)

/-- Lines, and then more lines. -/
theorem hearLines_append (lines more : List Line) :
    L.hearLines (lines ++ more) = (L.hearLines lines).hearLines more := by
  rw [hearLines, List.filterMap_append, List.foldl_append]
  rfl

/-- The part that is selected after some lines is known. -/
theorem current_hearLines (lines : List Line) :
    (L.hearLines lines).current = Reading.selected L.current lines := by
  induction lines generalizing L with
  | nil => rfl
  | cons line rest ih =>
    have hline : (L.hearLines [line]).current = line.selects?.or L.current := by
      cases line with
      | chord line =>
        change (L.hear (.chord line.attributes)).current = L.current
        rw [hear]
        split <;> rfl
      | _ => rfl
    rw [← List.singleton_append, hearLines_append, ih, hline]
    rfl

/-- Lines that are no chords change no manner, and nothing is heard. -/
theorem hearLines_of_silent {lines : List Line} (h : lines.filterMap Line.chord? = []) :
    (L.hearLines lines).manner = L.manner ∧ (L.hearLines lines).heard = L.heard := by
  induction lines generalizing L with
  | nil => exact ⟨rfl, rfl⟩
  | cons line rest ih =>
    rw [List.filterMap_eq_nil_iff, List.forall_mem_cons, ← List.filterMap_eq_nil_iff] at h
    obtain ⟨hline, hrest⟩ := h
    have hfirst : (L.hearLines [line]).manner = L.manner ∧
        (L.hearLines [line]).heard = L.heard := by
      cases line <;> first | exact ⟨rfl, rfl⟩ | cases hline
    rw [← List.singleton_append, hearLines_append, (ih _ hrest).1, (ih _ hrest).2]
    exact hfirst

/-- A chord is heard from the selected part. -/
theorem hearLines_chord {id : PartId} (hcurrent : L.current = some id) (line : ChordLine) :
    L.hearLines [.chord line] =
      { L with
        manner := Function.update L.manner id (line.attributes.foldl Manner.change (L.manner id))
        heard := L.heard ++ [(id, line.attributes.foldl Manner.change (L.manner id))] } := by
  change L.hear (.chord line.attributes) = _
  rw [hear, hcurrent]

end Listener

/-! ### How parts sound -/

/-- The volume of a velocity in percent, rounded half to even. -/
def volumeOf (velocity : Int) : Int := Number.roundHalfEven ((velocity * 100 : Int) / 127)

/-- How a part sounds its notes. -/
def PartState.manner (part : PartState) : Manner := ⟨part.quant, volumeOf part.velocity⟩

/-- How a note is to sound: pressed for its share, but for one percent at least, and with the volume
of its velocity. -/
def Score.Tone.manner (tone : Score.Tone) : Manner :=
  ⟨max 1 tone.written.percent, volumeOf tone.velocity⟩

/-- A new part sounds as a reader takes it to. -/
theorem PartState.manner_new : ({} : PartState).manner = {} := by decide +kernel

/-- In double precision the volume is the same. -/
theorem Score.volume_eq {velocity : Int} (h : 1 ≤ velocity ∧ velocity ≤ 127) :
    Score.volume velocity = .ok (volumeOf velocity) := by
  have hall : ∀ v : Fin 128, (Score.volume v.val).toOption = some (volumeOf v.val) := by
    decide +kernel
  have hvolume := hall ⟨velocity.toNat, by omega⟩
  simp only [Int.toNat_of_nonneg (show 0 ≤ velocity by omega)] at hvolume
  cases hok : Score.volume velocity with
  | error e => simp [hok, Except.toOption] at hvolume
  | ok percent =>
    rw [hok] at hvolume
    exact congrArg Except.ok (Option.some.inj hvolume)

/-- Two scores in which every part sounds alike. -/
theorem Score.SameManner.manner_eq {s s' : Score} (h : s.SameManner s') (id : PartId) :
    (s'.part id).manner = (s.part id).manner := by
  rw [PartState.manner, (h id).1, (h id).2, PartState.manner]

namespace Score

variable {id : PartId} {tone : Tone} {s s' : Score}

/-- The quantization of a part changes to that of a note, and a reader is told. -/
theorem changeQuant_spec (id : PartId) (tone : Tone) (s : Score) :
    (s.changeQuant id tone).1.foldl Manner.change (s.part id).manner =
        ⟨max 1 tone.written.percent, volumeOf (s.part id).velocity⟩ ∧
      Alters id { s.part id with quant := max 1 tone.written.percent } 0 s
        (s.changeQuant id tone).2 := by
  by_cases hsame : max 1 tone.written.percent = (s.part id).quant
  · simp only [changeQuant, hsame, if_true]
    exact ⟨rfl, Alters.refl id s⟩
  · simp only [changeQuant, hsame, if_false]
    exact ⟨rfl, modifyPart_alters s id (fun part =>
      { part with quant := max 1 tone.written.percent })⟩

/-- The velocity of a part changes to that of a note in range, and a reader is told its volume. -/
theorem changeVelocity_spec (htone : tone.InRange) {volumes : List Attribute}
    (h : s.changeVelocity id tone = .ok (volumes, s')) :
    volumes.foldl Manner.change (s.part id).manner =
        ⟨(s.part id).quant, volumeOf tone.velocity⟩ ∧
      Alters id { s.part id with velocity := tone.velocity } 0 s s' := by
  unfold changeVelocity at h
  split at h
  · rename_i hsame
    cases h
    rw [hsame]
    exact ⟨rfl, Alters.refl id s⟩
  · rw [volume_eq htone.velocity] at h
    cases h
    exact ⟨rfl, modifyPart_alters s id (fun part => { part with velocity := tone.velocity })⟩

end Score

/-- A reader who is told the attributes before a chord takes its part to sound as the lowest note is
to sound. So does the part, and the others sound as before. -/
theorem Writing.attributes_spec {p : Plan} (hshown : p.settings.attributes = true) {id : PartId}
    {tone : Score.Tone} (htone : tone.InRange) {rest : List Score.Tone} {s s' : Score}
    (hid : id ∈ s.roster.ids) {written : List Attribute}
    (h : Writes (attributes p id (tone :: rest)) s written s') :
    written.foldl Manner.change (s.part id).manner = tone.manner ∧
      ∀ id', (s'.part id').manner = if id' = id then tone.manner else (s.part id').manner := by
  obtain ⟨hquant, halters⟩ := Score.changeQuant_spec id tone s
  simp only [attributes, hshown, Bool.not_true, Bool.false_eq_true, if_false] at h
  obtain ⟨quants, s₁, hfirst, h⟩ := h.exists_bind
  obtain ⟨rfl, rfl⟩ := (Writes.of _ s).unique hfirst
  obtain ⟨volumes, s₂, hsecond, h⟩ := h.exists_bind
  obtain ⟨hvelocity, halters'⟩ := Score.changeVelocity_spec htone hsecond.of_check
  rw [halters.part_self hid] at hvelocity halters'
  obtain ⟨rfl, rfl⟩ := h.unique (Writes.pure _ s₂)
  refine ⟨?_, fun id' => ?_⟩
  · rw [List.foldl_append, hquant]
    exact hvelocity
  · rw [(halters.trans halters').part_eq hid]
    split <;> rfl

/-! ### Actions without chords -/

namespace Score.SameManner

variable {p : Plan} {s s' : Score}

/-- A part is selected. -/
theorem select (id : PartId) (s : Score) : s.SameManner (s.select id) := of_roster (by simp)

/-- A part rests. -/
theorem rest (id : PartId) (ticks tick : Int) (s : Score) :
    s.SameManner (s.rest p id ticks tick).2 := by
  obtain ⟨_, halters⟩ := rest_alters p id ticks tick s
  exact of_alters halters rfl rfl

/-- A part moves on. -/
theorem advance (id : PartId) (tick : Int) (s : Score) : s.SameManner (s.advance id tick) :=
  of_alters (advance_alters id tick s) (by simp) (by simp)

/-- A part rests on a line of its own. -/
theorem restLine (id : PartId) (tick : Int) (s : Score) : s.SameManner (s.restLine p id tick) := by
  have hrest := (select id s).trans
    (rest (p := p) id (tick - (s.part id).cursor) (s.part id).cursor (s.select id))
  unfold Score.restLine
  simp only [advance_addRest]
  generalize (s.select id).rest p id (tick - (s.part id).cursor) (s.part id).cursor = rested
    at hrest
  refine (hrest.trans (advance id tick rested.2)).trans (of_roster ?_)
  cases rested.1 <;> rfl

/-- A slice is begun. -/
theorem beginSlice (current : Slice) (number : Int) (s : Score) :
    s.SameManner (s.beginSlice p current number) := by
  have hrest (s : Score) : s.SameManner (s.restBeforeSlice p current) := by
    rcases s.restBeforeSlice_cases p current with hsame | ⟨id, _, _, hrest⟩
    · exact of_roster (by rw [hsame])
    · rw [hrest]
      exact restLine id current.beginTick s
  have hmark (s : Score) : s.SameManner (s.mark current) := by
    refine of_roster ?_
    unfold Score.mark
    split
    · rfl
    · split
      · exact roster_select s _
      · rfl
  have hannounce : s.SameManner (s.announceSlice p current number) := by
    have hnumber : s.SameManner { s with slice := number } := of_roster rfl
    unfold announceSlice
    split
    · exact hnumber.trans ((hrest _).trans (hmark _))
    · exact hnumber
  refine hannounce.trans (of_roster ?_)
  rw [beginSlice_eq]
  split <;> rfl

/-- The global settings of a slice are written. -/
theorem addGlobals (current : Slice) (s : Score) : s.SameManner (s.addGlobals current) := by
  have hkey : (s.changeKey current).2.roster = s.roster := by
    unfold changeKey
    split
    · rfl
    · split <;> rfl
  refine of_roster ?_
  simp only [Score.addGlobals]
  split <;> exact hkey

end Score.SameManner

/-- An action that writes no chord changes no manner. -/
theorem Action.sameManner {p : Plan} {a : Action} {s s' : Score} (h : Writes (a.write p) s () s')
    (hnone : a.chord? = none) : s.SameManner s' := by
  cases a with
  | beginSlice slice number =>
    obtain ⟨_, rfl⟩ := h.unique (Writes.act _ s)
    exact .beginSlice slice number s
  | globals slice =>
    obtain ⟨_, rfl⟩ := h.unique (Writes.act _ s)
    exact .addGlobals slice s
  | blank =>
    obtain ⟨_, rfl⟩ := h.unique (Writes.act _ s)
    exact .of_roster rfl
  | change channel tick =>
    obtain ⟨id, s₁, hchange, h⟩ := h.exists_bind
    obtain ⟨_, rfl⟩ := changePart_eq hchange
    obtain ⟨_, rfl⟩ := h.unique (Writes.pure () _)
    exact .change id s
  | chord c => cases hnone

/-! ### Runs -/

/-- How a chord is to sound: as its lowest note. -/
def Chord.manner (c : Chord) : Manner := (c.tones.head?.map Score.Tone.manner).getD {}

/-- A reader who listens to the lines of a score takes every part to sound as it does. -/
def Score.Attended (s : Score) : Prop :=
  ∀ id, (({} : Listener).hearLines s.lines.toList).manner id = (s.part id).manner

/-- A reader who can read a score knows the selected part by listening, too. -/
theorem Agrees.current_hearLines {t : LengthTables} {s : Score} {R : Reading} (h : Agrees t s R) :
    (({} : Listener).hearLines s.lines.toList).current = s.current := by
  rw [Listener.current_hearLines, ← h.current]
  exact (Reading.follows_of_lines? h.reads).2.1.symm

/-- A chord is heard from its part with the manner of its lowest note, and the reader goes on to
take every part to sound as it does. -/
theorem Chord.Lined.attended {p : Plan} (hshown : p.settings.attributes = true) {c : Chord}
    (hc : c.Valid p.tables) {id : PartId} {line : ChordLine} {s entered attributed s' : Score}
    {R : Reading} (h : c.Lined p id line s entered attributed s') (hagrees : Agrees p.tables s R)
    (hattended : s.Attended) :
    s'.Attended ∧ (({} : Listener).hearLines s'.lines.toList).heard =
      (({} : Listener).hearLines s.lines.toList).heard ++ [(id, c.manner)] := by
  obtain ⟨tone, rest, htones⟩ := List.exists_cons_of_ne_nil hc.nonempty
  have htone : tone.InRange := (hc.fits tone (by simp [htones])).inRange
  have hattributes := h.attributes
  rw [htones] at hattributes
  obtain ⟨hwritten, hparts⟩ := attributes_spec hshown htone h.declared hattributes
  have hmanner : c.manner = tone.manner := by rw [Chord.manner, htones]; rfl
  obtain ⟨lead, hlines, hlead⟩ := h.lines
  have hselected := hagrees.current_hearLines
  unfold Score.Attended at hattended ⊢
  rw [hlines, Listener.hearLines_append, Listener.hearLines_append]
  generalize ({} : Listener).hearLines s.lines.toList = L at hattended hselected ⊢
  -- the line before the chord, if there is one, selects its part
  obtain ⟨hcurrent, hsame, hheard⟩ : (L.hearLines lead).current = some id ∧
      (L.hearLines lead).manner = L.manner ∧ (L.hearLines lead).heard = L.heard := by
    rcases hlead with ⟨rfl, hcurrent⟩ | ⟨switch, rfl, hswitch⟩
    · exact ⟨hselected.trans hcurrent, rfl, rfl⟩
    · have hsilent : [switch].filterMap Line.chord? = [] := by
        cases switch <;> first | rfl | cases hswitch
      refine ⟨?_, L.hearLines_of_silent hsilent⟩
      rw [L.current_hearLines]
      simp [Reading.selected, hswitch]
  have hheardAs : line.attributes.foldl Manner.change (L.manner id) = tone.manner := by
    rw [hattended, ← h.entering.manner_eq, hwritten]
  rw [(L.hearLines lead).hearLines_chord hcurrent, hsame, hheard, hheardAs, hmanner]
  refine ⟨fun id' => ?_, rfl⟩
  rw [h.leaving.manner_eq, hparts]
  change Function.update L.manner id tone.manner id' = _
  rw [Function.update_apply]
  split
  · rfl
  · rw [hattended, h.entering.manner_eq]

/-- Every action keeps it that a reader takes all parts to sound as they do, and the reader hears
the chord of the action, if it has one, with the manner of its lowest note. -/
theorem Agrees.attended_step {p : Plan} (hp : p.Proper) (hshown : p.settings.attributes = true)
    {a : Action} {s s' : Score} {R R' : Reading} (h : Agrees p.tables s R)
    (ha : a.Valid p.tables) (hwrite : Writes (a.write p) s () s') (h' : Agrees p.tables s' R')
    (heffect : a.Effect p s R s' R') (hattended : s.Attended) :
    s'.Attended ∧ (({} : Listener).hearLines s'.lines.toList).heard =
      (({} : Listener).hearLines s.lines.toList).heard ++
        (a.chord?.bind (fun c => s'.current.map (fun id => (id, c.manner)))).toList := by
  cases hchord : a.chord? with
  | none =>
    obtain ⟨new, hlines⟩ := Action.grows hwrite
    have hsilent : new.filterMap Line.chord? = [] := by
      have hchords := h.chords_eq h' hwrite heffect hchord
      rw [Score.chords, hlines, List.filterMap_append] at hchords
      exact List.append_cancel_left (hchords.trans (List.append_nil _).symm)
    rw [Score.Attended, hlines, Listener.hearLines_append]
    obtain ⟨hmanner, hheard⟩ :=
      (({} : Listener).hearLines s.lines.toList).hearLines_of_silent hsilent
    rw [hmanner, hheard]
    refine ⟨fun id => ?_, (List.append_nil _).symm⟩
    rw [hattended, (Action.sameManner hwrite hchord).manner_eq]
  | some c =>
    obtain rfl := Action.eq_chord hchord
    obtain ⟨id, line, entered, attributed, hlined⟩ := h.lined hp ha hwrite
    rw [hlined.current]
    exact hlined.attended hshown ha h hattended

/-- In a run a reader hears the chords from the parts that play them, each with the manner of its
lowest note. -/
theorem Agrees.attended_run {p : Plan} (hp : p.Proper) (hshown : p.settings.attributes = true)
    {actions : List Action} (hvalid : ∀ a ∈ actions, a.Valid p.tables) {s s' : Score} {R : Reading}
    (h : Agrees p.tables s R) (hattended : s.Attended)
    (hwrite : Writes (actions.forM (Action.write p)) s () s') :
    (({} : Listener).hearLines s'.lines.toList).heard =
      (({} : Listener).hearLines s.lines.toList).heard ++
        (p.played actions s).map (fun x => (x.1, x.2.manner)) := by
  induction actions generalizing s R with
  | nil =>
    obtain ⟨_, rfl⟩ := hwrite.unique (Writes.pure () s)
    exact (List.append_nil _).symm
  | cons a rest ih =>
    have ha : a.Valid p.tables := hvalid a List.mem_cons_self
    obtain ⟨s₁, R₁, hfirst, hrest, hagrees₁, heffect⟩ := h.first hp ha hwrite
    obtain ⟨hattended₁, hheard⟩ := h.attended_step hp hshown ha hfirst hagrees₁ heffect hattended
    have hall := ih (fun b hb => hvalid b (List.mem_cons_of_mem _ hb)) hagrees₁ hattended₁ hrest
    have hrun : (a.write p).run s = .ok () s₁ := hfirst
    rw [hall, hheard, Plan.played, hrun, List.map_append, List.append_assoc]
    cases a.chord? with
    | none => rfl
    | some c => cases s₁.current <;> rfl

/-! ### Texts -/

/-- A reader hears in a text what is heard in the lines of its score. -/
theorem Listener.ofText_textOf (p : Plan) {s : Score} (h : s.Paged) :
    ofText (p.textOf s) = ({} : Listener).hearLines s.lines.toList := by
  rw [ofText, p.filterMap_readChars?_textOf h rfl (fun _ => rfl), hearLines]

/-- A percentage that is kept as a share in double precision and is read again: hundred times the
quotient by hundred, rounded half to even. -/
def keptPercent? (percent : Int) : Option Int :=
  match Number.Binary64.nearest ((percent : Rat) / 100) with
  | .finite share =>
    match Number.Binary64.nearest (share * 100) with
    | .finite product => some (Number.roundHalfEven product)
    | _ => none
  | _ => none

/-- Up to twice the length of a note a percentage is kept as it is. -/
theorem keptPercent?_eq {percent : Int} (h : 0 ≤ percent ∧ percent ≤ 200) :
    keptPercent? percent = some percent := by
  have hall : ∀ n : Fin 201, keptPercent? n.val = some (n.val : Int) := by decide +kernel
  have hkept := hall ⟨percent.toNat, by omega⟩
  simp only [Int.toNat_of_nonneg h.1] at hkept
  exact hkept

/-- The first note of a chord of a transcription is the lowest one, and its percentage can be
kept. -/
theorem Plan.exists_lowest {p : Plan} (hp : p.Proper) {slices : List Slice} {c : Chord}
    (hc : c ∈ (p.actions slices).filterMap Action.chord?) :
    ∃ tone rest, c.tones = tone :: rest ∧ (∀ tone' ∈ rest, tone.pitch < tone'.pitch) ∧
      tone.written.percent ≤ 200 := by
  obtain ⟨a, ha, hchord⟩ := List.mem_filterMap.mp hc
  rw [actions_eq] at ha
  obtain ⟨s, _, ha⟩ := List.mem_flatMap.mp ha
  rw [sliceActions_eq, List.mem_cons] at ha
  rcases ha with rfl | ha
  · cases hchord
  · rcases mem_content ha with rfl | rfl | ⟨_, _, rfl⟩ | ⟨channel, g, hg, hnotes, rfl⟩
    · cases hchord
    · cases hchord
    · cases hchord
    · cases hchord
      have hsorted := g.notes.keys_pairwise
      obtain ⟨n, rest, hentries⟩ := List.exists_cons_of_ne_nil hnotes
      rw [Table.keys, hentries, List.map_cons, List.pairwise_cons] at hsorted
      have htones : Score.tones p (Group.nextOnset? (s.1.groups p channel) g.tick) g = _ :=
        congrArg (List.map _) hentries
      refine ⟨_, _, htones, fun tone' htone' => ?_, LengthTables.Proper.percent_le hp.tables _ _⟩
      obtain ⟨n', hn', rfl⟩ := List.mem_map.mp htone'
      exact hsorted.1 n'.1 (List.mem_map.mpr ⟨n', hn', rfl⟩)

/-- The chords of a transcription, each by the part that plays it and how it is to sound. -/
def Plan.manners (p : Plan) (slices : List Slice) : List (PartId × Manner) :=
  (p.played (p.actions slices) {}).map (fun x => (x.1, x.2.manner))

/-- **With attributes, every chord is heard as its lowest note is to sound.** A recording that is
read from a document has slices and a transcript. A reader of its text who starts with a
quantization of 90 and a volume of 79 for every part, and changes them only by the attributes on the
lines of that part, hears every chord from the part that plays it, in order, with the manner of the
chord: the percentage of its lowest note, but one at least, and the volume of its velocity, rounded
half to even. In double precision the percentage is kept as it is. So two chords of a part whose
lowest notes have equal velocities and equal percentages are heard alike. -/
theorem Recording.manner_heard {document : Json} {r : Recording}
    (hdocument : Recording.ofDocument document = .ok r) {settings : Settings}
    (hattributes : settings.attributes = true) :
    ∃ slices t, r.slices = .ok slices ∧ r.transcribe settings = .ok t ∧
      let p := Plan.of r settings
      let played := p.played (p.actions slices) {}
      let heard := (Listener.ofText t.text).heard
      played.map Prod.snd = (p.actions slices).filterMap Action.chord? ∧
      heard = p.manners slices ∧
      (∀ x ∈ played, x.1.channel = x.2.channel ∧ ∃ tone rest, x.2.tones = tone :: rest ∧
        (∀ tone' ∈ rest, tone.pitch < tone'.pitch) ∧
        x.2.manner.quant = max 1 tone.written.percent ∧
        x.2.manner.volume = Number.roundHalfEven ((tone.velocity * 100 : Int) / 127) ∧
        keptPercent? x.2.manner.quant = some x.2.manner.quant) ∧
      ∀ (i j : Nat) (id : PartId) (c c' : Chord) (tone tone' : Score.Tone)
        (rest rest' : List Score.Tone), played[i]? = some (id, c) → played[j]? = some (id, c') →
        c.tones = tone :: rest → c'.tones = tone' :: rest' → tone.velocity = tone'.velocity →
        tone.written.percent = tone'.written.percent → heard[i]? = heard[j]? := by
  have hbuilt := ofDocument_built hdocument
  have hp := Plan.proper_of hbuilt.wellFormed settings
  obtain ⟨slices, s, R, hslices, hhas, hscore, _, hpaged⟩ := exists_paged hbuilt settings
  refine ⟨slices, _, hslices, bind_eq_ok.mpr ⟨slices, hslices, bind_eq_ok.mpr ⟨s, hscore, rfl⟩⟩, ?_⟩
  intro p played heard
  obtain ⟨_, _, _, _, done, hdone, hchords, hchannels, _⟩ := Agrees.slices hp hhas
  rw [Plan.played, List.append_nil] at hdone
  rw [List.filterMap_nil, List.append_nil] at hchords
  have hdone : done = played := hdone
  rw [hdone] at hchords hchannels
  have hheard : heard = p.manners slices := by
    have hstart : ({} : Score).Attended := fun _ => PartState.manner_new.symm
    have hrun := (Agrees.start p.tables).attended_run hp hattributes (Plan.valid_actions hp hhas)
      hstart (Plan.score_eq_ok.mp hscore)
    have htext := congrArg Listener.heard (Listener.ofText_textOf p hpaged)
    exact htext.trans hrun
  refine ⟨hchords, hheard, fun x hx => ⟨hchannels x hx, ?_⟩, ?_⟩
  · have hmem : x.2 ∈ (p.actions slices).filterMap Action.chord? :=
      hchords ▸ List.mem_map.mpr ⟨x, hx, rfl⟩
    obtain ⟨tone, rest, htones, hlowest, hpercent⟩ := Plan.exists_lowest hp hmem
    have hmanner : x.2.manner = tone.manner := by rw [Chord.manner, htones]; rfl
    refine ⟨tone, rest, htones, hlowest, congrArg Manner.quant hmanner,
      congrArg Manner.volume hmanner, keptPercent?_eq ?_⟩
    have hquant : x.2.manner.quant = max 1 tone.written.percent := congrArg Manner.quant hmanner
    omega
  · intro i j id c c' tone tone' rest rest' hi hj htones htones' hvelocity hpercent
    have hsame : c.manner = c'.manner := by
      rw [Chord.manner, Chord.manner, htones, htones']
      simp only [List.head?_cons, Option.map_some, Option.getD_some, Score.Tone.manner, hvelocity,
        hpercent]
    have hmanner (k : Nat) : heard[k]? = played[k]?.map (fun x => (x.1, x.2.manner)) := by
      rw [hheard, Plan.manners, List.getElem?_map]
    rw [hmanner, hmanner, hi, hj, Option.map_some, Option.map_some, hsame]

/-- A note of a document with its velocity. -/
def Json.ofStrike (tick note length velocity : Int) : Json :=
  .obj [("tick", .int tick), ("note", .int note), ("length", .int length),
    ("velocity", .int velocity)]

/-- The document of two channels that take turns in two slices. In the second one the second channel
jumps to the marker. -/
def Json.ofTurns : Json :=
  .obj
    [("resolution", .int 4),
      ("channels", .obj
        [("0", .obj [("notes", .arr
            [.ofStrike 0 60 1 64, .ofStrike 0 64 4 100, .ofStrike 4 60 4 64,
              .ofStrike 8 60 4 64])]),
          ("1", .obj [("notes", .arr [.ofStrike 0 48 7 100, .ofStrike 8 50 4 127])])]),
      ("globals", .arr [.obj [("tick", .int 8), ("tempo", .int 90)]])]

/-- The first part keeps its volume while the other one sounds. -/
theorem Recording.manner_heard_turns :
    ∃ r t, Recording.ofDocument .ofTurns = .ok r ∧
      r.transcribe { attributes := true } = .ok t ∧
      (Listener.ofText t.text).heard =
        [(⟨0, 0⟩, ⟨25, 50⟩), (⟨0, 0⟩, ⟨100, 50⟩), (⟨1, 0⟩, ⟨100, 79⟩), (⟨0, 0⟩, ⟨100, 50⟩),
          (⟨1, 0⟩, ⟨100, 100⟩)] := by
  obtain ⟨r, hdocument, hslices⟩ := exists_eq_ok
    (show (Recording.ofDocument .ofTurns).toOption.any (fun r => r.slices.toOption.any
      (fun slices => (Plan.of r { attributes := true }).manners slices =
        [(⟨0, 0⟩, ⟨25, 50⟩), (⟨0, 0⟩, ⟨100, 50⟩), (⟨1, 0⟩, ⟨100, 79⟩), (⟨0, 0⟩, ⟨100, 50⟩),
          (⟨1, 0⟩, ⟨100, 100⟩)])) = true by decide +kernel)
  have hattributes : ({ attributes := true } : Settings).attributes = true := rfl
  obtain ⟨slices, t, hok, htranscribe, _, hheard, _⟩ :=
    Recording.manner_heard hdocument hattributes
  simp only [hok, Except.toOption, Option.any_some, decide_eq_true_eq] at hslices
  exact ⟨r, t, hdocument, htranscribe, hheard.trans hslices⟩

end Transcription
