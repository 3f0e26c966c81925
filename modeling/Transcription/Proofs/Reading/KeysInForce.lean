import Transcription.Proofs.Key.Descriptors
import Transcription.Proofs.Reading.ChordLines
import Transcription.Proofs.Score.Partition
import Transcription.Proofs.Score.Total

/-!
# The key of every note

The key in force in a slice is that of the last slice up to it whose key can be read. Notes are
spelled in this key. The global settings of a text are those of the slices: the key that can be
read and the tempo, and a key that is refused leaves the tempo as it is.
-/

namespace Transcription

open Writing

/-! ### Keys of slices -/

namespace Slice

/-- The key of a slice, if it has one that can be read. -/
def key? (s : Slice) : Option KeySignature :=
  (s.globals.get? keyCommand).bind KeySignature.read?

/-- The text that is no key but stands for one in a slice. -/
def refusedKey? (s : Slice) : Option String :=
  (s.globals.get? keyCommand).filter (fun text => KeySignature.read? text = none)

/-- The global settings of a slice: its key, if it can be read, and its tempo. -/
def settings (s : Slice) : List GlobalSetting :=
  (s.key?.map GlobalSetting.key).toList ++ Score.tempoSetting s

/-- The global settings of a slice, if it has any. -/
def settings? (s : Slice) : Option (List GlobalSetting) :=
  if s.settings = [] then none else some s.settings

end Slice

/-- The key in force in the slice of a number: that of the last slice up to this one that has
one. -/
def keyInForce (start : KeySignature) (slices : List Slice) (number : Nat) : KeySignature :=
  ((slices.take (number + 1)).filterMap Slice.key?).getLast?.getD start

/-- Slices with the keys that are in force in them. -/
def withKeys (start : KeySignature) : List Slice → List (KeySignature × Slice)
  | [] => []
  | s :: rest => (s.key?.getD start, s) :: withKeys (s.key?.getD start) rest

/-- In the first slice its own key is in force, if it has one. -/
theorem keyInForce_zero (start : KeySignature) (s : Slice) (rest : List Slice) :
    keyInForce start (s :: rest) 0 = s.key?.getD start := by
  simp only [keyInForce, Nat.zero_add, List.take_succ_cons, List.take_zero]
  cases hkey : s.key? with
  | none => simp [hkey]
  | some key => simp [hkey]

/-- After the first slice the key that is in force in it is the one to start from. -/
theorem keyInForce_succ (start : KeySignature) (s : Slice) (rest : List Slice) (number : Nat) :
    keyInForce start (s :: rest) (number + 1) = keyInForce (s.key?.getD start) rest number := by
  simp only [keyInForce, List.take_succ_cons]
  cases hkey : s.key? with
  | none => rw [List.filterMap_cons_none hkey, Option.getD_none]
  | some key =>
    rw [List.filterMap_cons_some hkey, List.getLast?_cons, Option.getD_some, Option.getD_some]

/-- Every slice stands with the key in force at its number. -/
theorem withKeys_eq (start : KeySignature) (slices : List Slice) :
    withKeys start slices = slices.zipIdx.map (fun s => (keyInForce start slices s.2, s.1)) := by
  induction slices generalizing start with
  | nil => rfl
  | cons s rest ih =>
    rw [withKeys, ih, List.zipIdx_cons, List.map_cons, keyInForce_zero, List.zipIdx_succ,
      List.map_map]
    refine congrArg _ (List.map_congr_left (fun x _ => ?_))
    exact congrArg (·, x.1) (keyInForce_succ start s rest x.2).symm

/-- A text that can be read puts its key in force, and another one leaves the key as it is. -/
theorem KeySignature.after_keyText? (key : KeySignature) (s : Slice) :
    key.after s.keyText?.toList = s.key?.getD key := by
  unfold Slice.keyText? Slice.key? KeySignature.after
  cases s.globals.get? keyCommand with
  | none => rfl
  | some text =>
    simp only [Option.map_some, Option.toList_some, List.foldl_cons, List.foldl_nil,
      Option.bind_some, KeySignature.read]
    cases KeySignature.read? text <;> rfl

/-- The texts of slices are warned of slice by slice, each with the key in force there. -/
theorem KeySignature.warnings_withKeys (key : KeySignature) (slices : List Slice) :
    key.warnings (slices.filterMap Slice.keyText?) =
      (withKeys key slices).filterMap (fun e =>
        e.2.refusedKey?.map (fun text => e.1.warning e.2.beginTick (.invalidKey text))) := by
  induction slices generalizing key with
  | nil => rfl
  | cons s rest ih =>
    rw [withKeys]
    cases htext : s.globals.get? keyCommand with
    | none =>
      have hkey : s.key? = none := by rw [Slice.key?, htext, Option.bind_none]
      have hrefused : s.refusedKey? = none := by rw [Slice.refusedKey?, htext, Option.filter_none]
      rw [List.filterMap_cons_none (by rw [Slice.keyText?, htext, Option.map_none]),
        List.filterMap_cons_none (by rw [hrefused, Option.map_none]), hkey, Option.getD_none, ih]
    | some text =>
      have hsome : s.keyText? = some (s.beginTick, text) := by
        rw [Slice.keyText?, htext, Option.map_some]
      rw [List.filterMap_cons_some hsome, KeySignature.warnings, KeySignature.read]
      cases hread : KeySignature.read? text with
      | none =>
        have hkey : s.key? = none := by rw [Slice.key?, htext, Option.bind_some, hread]
        have hrefused : s.refusedKey? = some text := by simp [Slice.refusedKey?, htext, hread]
        rw [List.filterMap_cons_some (by rw [hrefused, Option.map_some]), hkey, Option.getD_none]
        exact congrArg (key.warning s.beginTick (.invalidKey text) :: ·) (ih key)
      | some next =>
        have hkey : s.key? = some next := by rw [Slice.key?, htext, Option.bind_some, hread]
        have hrefused : s.refusedKey? = none := by simp [Slice.refusedKey?, htext, hread]
        rw [List.filterMap_cons_none (by rw [hrefused, Option.map_none]), hkey, Option.getD_some]
        exact ih next

/-! ### Global settings in a text -/

/-- The global settings of a line, if the line has some. -/
def Line.settings? : Line → Option (List GlobalSetting)
  | globals settings => some settings
  | _ => none

namespace Score

/-- The global settings that are written so far, line by line. -/
def settings (s : Score) : List (List GlobalSetting) := s.lines.toList.filterMap Line.settings?

/-- Two scores with the same global settings. -/
def SameSettings (s s' : Score) : Prop := s'.settings = s.settings

/-- Only global settings write lines with settings. -/
theorem SameSettings.stable : Stable SameSettings where
  trans h h' := Eq.trans h' h
  move hlines _ _ := by rw [SameSettings, settings, settings, hlines]
  addLine s line hline := by
    have hnone : line.settings? = none := by
      cases line <;> first | rfl | exact absurd rfl (hline _)
    rw [SameSettings, settings, addLine, Array.toList_push, List.filterMap_append,
      List.filterMap_cons_none hnone, List.filterMap_nil, List.append_nil, settings]
  addNotice _ _ _ := rfl

/-- The settings of a slice are written on one line, if there are any. -/
theorem settings_addGlobals (current : Slice) (s : Score) :
    (s.addGlobals current).settings = s.settings ++ current.settings?.toList := by
  have hkey : (s.changeKey current).1 = (current.key?.map GlobalSetting.key).toList ∧
      (s.changeKey current).2.lines = s.lines := by
    unfold changeKey Slice.key? KeySignature.read
    cases current.globals.get? keyCommand with
    | none => exact ⟨rfl, rfl⟩
    | some text =>
      simp only [Option.bind_some]
      cases KeySignature.read? text <;> exact ⟨rfl, rfl⟩
  obtain ⟨hkey, hlines⟩ := hkey
  have hsettings : (s.changeKey current).1 ++ tempoSetting current = current.settings := by
    rw [hkey, Slice.settings]
  simp only [addGlobals, hsettings, Slice.settings?]
  split
  · rw [Option.toList_none, List.append_nil, settings, settings, hlines]
  · simp [settings, addLine, hlines, Line.settings?]

end Score

/-- The global settings that an action writes, if it writes any. -/
def Action.settings? : Action → Option (List GlobalSetting)
  | globals slice => slice.settings?
  | _ => none

/-- An action writes its global settings and no others. -/
theorem Action.settings_write {p : Plan} {a : Action} {s s' : Score}
    (h : Writes (a.write p) s () s') : s'.settings = s.settings ++ a.settings?.toList := by
  by_cases hglobals : ∃ slice, a = .globals slice
  · obtain ⟨slice, rfl⟩ := hglobals
    cases h
    exact s.settings_addGlobals slice
  · have hsame := Along.action Score.SameSettings.stable p
      (fun slice heq => hglobals ⟨slice, heq⟩) h
    have hnone : a.settings? = none := by
      cases a <;> first | rfl | exact absurd ⟨_, rfl⟩ hglobals
    rw [hnone, Option.toList_none, List.append_nil]
    exact hsame

/-- A run writes the global settings of its actions. -/
theorem Score.settings_run {p : Plan} {actions : List Action} {s s' : Score}
    (h : Writes (actions.forM (Action.write p)) s () s') :
    s'.settings = s.settings ++ actions.filterMap Action.settings? := by
  induction actions generalizing s with
  | nil =>
    cases h
    exact (List.append_nil _).symm
  | cons a rest ih =>
    obtain ⟨_, s₁, hfirst, hrest⟩ := h.exists_bind
    rw [ih hrest, Action.settings_write hfirst, List.append_assoc, List.filterMap_cons]
    cases a.settings? <;> rfl

/-- The global settings of a score are those of its slices. -/
theorem Plan.settings_of_score {p : Plan} {slices : List Slice} {s : Score}
    (h : p.score slices = .ok s) : s.settings = slices.filterMap Slice.settings? := by
  have hrun := Score.settings_run (score_eq_ok.mp h)
  have hnone (a : Action) (ha : ∀ slice, a ≠ .globals slice) : a.settings? = none := by
    cases a with
    | globals slice => exact absurd rfl (ha slice)
    | _ => rfl
  rw [p.filterMap_globals hnone] at hrun
  exact hrun

/-! ### Names of notes -/

/-- The name of a note, if a sound is one. -/
def Element.name? : Element → Option String
  | note _ name _ => some name
  | rest _ => none

/-- The names of the notes of a chord's line. -/
def ChordLine.names (line : ChordLine) : List String := line.elements.filterMap Element.name?

/-- The names of the notes of a chord in a key. -/
def Chord.names (key : KeySignature) (c : Chord) : List String :=
  c.tones.map (fun tone => Spelling.name key.fifths tone.pitch)

/-- The chords of a slice, channel by channel. -/
def Slice.chords (p : Plan) (s : Slice) : List Chord :=
  (List.finRange channelCount).flatMap (fun channel => (s.runs p channel).map Prod.snd)

/-- The names of the chords among some actions, each chord in the key in force by then. -/
def KeySignature.spelled (key : KeySignature) : List Action → List (List String)
  | [] => []
  | a :: rest =>
    (a.chord?.map (Chord.names key)).toList ++ (key.after a.keyText?.toList).spelled rest

/-- The notes of a part have the names of their pitches in a key. -/
theorem PartState.filterMap_name?_elements (key : KeySignature) (tones : List Score.Tone)
    (part : PartState) :
    (PartState.elements key.fifths tones part).filterMap Element.name? =
      tones.map (fun tone => Spelling.name key.fifths tone.pitch) := by
  induction tones generalizing part with
  | nil => rfl
  | cons tone rest ih =>
    rw [PartState.elements, List.filterMap_cons, ih (part.sing tone), List.map_cons]
    rfl

/-- The notes on the line of a chord have the names of their pitches in the key in force. -/
theorem Chord.Lined.names_eq {p : Plan} {c : Chord} {id : PartId} {line : ChordLine}
    {s entered attributed s' : Score} (h : c.Lined p id line s entered attributed s') :
    line.names = c.names s.key := by
  have hrest : ((c.rest? p.tables).map Element.rest).toList.filterMap Element.name? = [] := by
    cases c.rest? p.tables <;> rfl
  rw [ChordLine.names, h.elements, List.filterMap_append, hrest, List.append_nil,
    PartState.filterMap_name?_elements, Chord.names]

/-- An action that is a chord adds its line, spelled in the key in force. -/
theorem Agrees.names_step {p : Plan} {a : Action} {s s' : Score} {R R' : Reading}
    (h : Agrees p.tables s R) (hp : p.Proper) (ha : a.Valid p.tables)
    (hwrite : Writes (a.write p) s () s') (h' : Agrees p.tables s' R')
    (heffect : a.Effect p s R s' R') :
    s'.chords.map ChordLine.names =
      s.chords.map ChordLine.names ++ (a.chord?.map (Chord.names s.key)).toList := by
  cases hchord : a.chord? with
  | none =>
    rw [h.chords_eq h' hwrite heffect hchord, Option.map_none, Option.toList_none, List.append_nil]
  | some c =>
    obtain rfl := Action.eq_chord hchord
    obtain ⟨id, line, entered, attributed, hlined⟩ := h.lined hp ha hwrite
    rw [hlined.chords_eq, List.map_append, List.map_singleton, hlined.names_eq, Option.map_some,
      Option.toList_some]

/-- A run of actions adds the lines of its chords, each spelled in the key in force by then. -/
theorem Agrees.names_run {p : Plan} (hp : p.Proper) {actions : List Action}
    (hvalid : ∀ a ∈ actions, a.Valid p.tables) {s s' : Score} {R : Reading}
    (h : Agrees p.tables s R) (hwrite : Writes (actions.forM (Action.write p)) s () s') :
    s'.chords.map ChordLine.names = s.chords.map ChordLine.names ++ s.key.spelled actions := by
  induction actions generalizing s R with
  | nil =>
    cases hwrite
    exact (List.append_nil _).symm
  | cons a rest ih =>
    have ha : a.Valid p.tables := hvalid a List.mem_cons_self
    obtain ⟨s₁, R₁, hfirst, hrest, hagrees₁, heffect⟩ := h.first hp ha hwrite
    have hkey : s₁.key = s.key.after a.keyText?.toList := (Action.keyed hfirst).key
    have hstep := h.names_step hp ha hfirst hagrees₁ heffect
    have hall := ih (fun b hb => hvalid b (List.mem_cons_of_mem _ hb)) hagrees₁ hrest
    rw [hall, hstep, hkey, KeySignature.spelled, List.append_assoc]

namespace KeySignature

/-- The chords of some actions and of further ones. -/
theorem spelled_append (key : KeySignature) (actions more : List Action) :
    key.spelled (actions ++ more) =
      key.spelled actions ++ (key.after (actions.filterMap Action.keyText?)).spelled more := by
  induction actions generalizing key with
  | nil => rfl
  | cons a rest ih =>
    have hafter : (key.after a.keyText?.toList).after (rest.filterMap Action.keyText?) =
        key.after ((a :: rest).filterMap Action.keyText?) := by
      rw [List.filterMap_cons]
      cases a.keyText? <;> rfl
    rw [List.cons_append, spelled, ih, spelled, hafter, List.append_assoc]

/-- Without keys all chords are spelled alike. -/
theorem spelled_of_keyless {actions : List Action} (h : ∀ a ∈ actions, a.keyText? = none)
    (key : KeySignature) :
    key.spelled actions = (actions.filterMap Action.chord?).map (Chord.names key) := by
  induction actions with
  | nil => rfl
  | cons a rest ih =>
    have hafter : key.after a.keyText?.toList = key := by
      rw [h a List.mem_cons_self]
      rfl
    rw [spelled, hafter, ih (fun b hb => h b (List.mem_cons_of_mem _ hb)), List.filterMap_cons]
    cases a.chord? <;> rfl

/-- The chords of a slice are spelled in its key, if it has one that can be read. -/
theorem spelled_sliceActions (p : Plan) (key : KeySignature) (s : Slice × Nat) :
    key.spelled (p.sliceActions s) =
        (s.1.chords p).map (Chord.names (s.1.key?.getD key)) ∧
      key.after ((p.sliceActions s).filterMap Action.keyText?) = s.1.key?.getD key := by
  let music := (List.finRange channelCount).flatMap
    (fun channel => (Call.channelBlock s.1 channel).actions p)
  have hactions : p.sliceActions s = [.beginSlice s.1 (s.2 : Int), .globals s.1] ++ music :=
    p.sliceActions_eq s
  have hkeyless : ∀ a ∈ music, a.keyText? = none := by
    intro a ha
    obtain ⟨channel, _, ha⟩ := List.mem_flatMap.mp ha
    rcases Call.mem_channelBlock ha with rfl | ⟨g, _, rfl⟩ | ⟨g, _, _, rfl⟩ <;> rfl
  have hchords : music.filterMap Action.chord? = s.1.chords p := by
    rw [Slice.chords, List.filterMap_flatMap]
    simp only [Call.filterMap_channelBlock]
  have htexts : [Action.beginSlice s.1 (s.2 : Int), .globals s.1].filterMap Action.keyText? =
      s.1.keyText?.toList := by
    rw [List.filterMap_cons_none rfl, List.filterMap_cons, List.filterMap_nil, Action.keyText?]
    cases s.1.keyText? <;> rfl
  rw [hactions]
  constructor
  · rw [spelled_append, htexts, after_keyText?, spelled_of_keyless hkeyless, hchords]
    rfl
  · rw [List.filterMap_append, htexts, List.filterMap_eq_nil_iff.mpr hkeyless, List.append_nil,
      after_keyText?]

/-- The chords of slices are spelled in the keys in force in the slices. -/
theorem spelled_sliceActions_flatMap (p : Plan) (key : KeySignature) (slices : List Slice)
    (number : Nat) :
    key.spelled ((slices.zipIdx number).flatMap p.sliceActions) =
      (withKeys key slices).flatMap (fun e => (e.2.chords p).map (Chord.names e.1)) := by
  induction slices generalizing key number with
  | nil => rfl
  | cons s rest ih =>
    obtain ⟨hspelled, hafter⟩ := spelled_sliceActions p key (s, number)
    rw [List.zipIdx_cons, List.flatMap_cons, spelled_append, hspelled, hafter, ih, withKeys,
      List.flatMap_cons]

end KeySignature

/-! ### Keys in a text -/

/-- The names of the notes in a line of a text, if the line is a chord. -/
def Line.chordNames? (line : List Char) : Option (List String) :=
  (Line.readChars? line).bind (fun line => line.chord?.map ChordLine.names)

/-- Only global settings have an exclamation mark in their text. -/
theorem Line.mem_text_iff {line : Line} (h : line.Legible) :
    '!' ∈ line.text.toList ↔ line.settings?.isSome := by
  cases line with
  | globals settings =>
    have hkey (k : KeySignature) : '!' ∈ (GlobalSetting.key k).text.toList := by
      rw [toList_text_key]
      exact List.mem_append_left _ (by decide)
    have htempo (text : String) : '!' ∈ (GlobalSetting.tempo text).text.toList := by
      rw [toList_text_tempo]
      exact List.mem_append_left _ (by decide)
    have hmark : '!' ∈ (Line.globals settings).text.toList := by
      rcases h with ⟨k, rfl⟩ | ⟨text, rfl⟩ | ⟨k, text, rfl⟩
      · simpa only [toList_text_globals_singleton] using hkey k
      · simpa only [toList_text_globals_singleton] using htempo text
      · rw [toList_text_globals_pair]
        exact List.mem_append_left _ (hkey k)
    simp [hmark, settings?]
  | chord line =>
    have hnot : '!' ∉ (Line.chord line).text.toList := by
      intro hc
      rw [toList_text_chord, List.mem_cons] at hc
      rcases hc with hc | hc
      · cases hc
      · rcases mem_intercalate_singleton hc with hc | ⟨word, hword, hc⟩
        · cases hc
        · exact ChordLine.notMem_allWords h hword (by decide) (by decide) hc
    simp [hnot, settings?]
  | _ =>
    refine ⟨fun hc => ?_, fun hsome => absurd hsome Bool.false_ne_true⟩
    exact absurd (isLineChar_of_mem h rfl hc) (by decide)

namespace Plan

variable (p : Plan) {s : Score} (h : s.Paged)

include h

/-- The lines with an exclamation mark in a text are the global settings of its score. -/
theorem filter_linesOf_textOf :
    (linesOf (p.textOf s)).filter (fun line => '!' ∈ line) =
      s.settings.map (fun settings => (Line.globals settings).text.toList) := by
  have hstatistics (line : List Char) (hline : Statistics.IsLine line) :
      Option.guard (fun line => decide ('!' ∈ line)) line = none := by
    simpa [Option.guard] using hline.notMem (by decide)
  rw [← List.filterMap_eq_filter, p.filterMap_linesOf h rfl hstatistics, Score.texts,
    Score.settings, List.filterMap_map, List.map_filterMap]
  refine List.filterMap_congr (fun line hline => ?_)
  have hmark := Line.mem_text_iff (h.legible line (Array.mem_toList_iff.mp hline))
  cases line with
  | globals settings =>
    rw [Function.comp_apply, Line.settings?, Option.map_some, Option.guard, if_pos]
    exact decide_eq_true (hmark.mpr rfl)
  | _ =>
    rw [Function.comp_apply, Line.settings?, Option.map_none, Option.guard, if_neg]
    · simpa [Line.settings?] using hmark
    · intro _ heq
      cases heq

/-- The chords of a score are found in its text. -/
theorem filterMap_chordNames?_textOf :
    (linesOf (p.textOf s)).filterMap Line.chordNames? = s.chords.map ChordLine.names := by
  rw [Score.chords, List.map_filterMap]
  exact p.filterMap_readChars?_textOf h rfl (fun _ => rfl)

end Plan

namespace Recording

/-- **The key signature in force is the last one that can be read.** A recording that is read from a
document has slices and, under any settings, a transcript. The commands of a slice are those at its
begin, and the texts that can be read as keys are two integers with a slash between them, a place in
the circle of fifths and the number of a mode. The chords of the text are those of the slices, one
after the other, spelled in the key in force in their slice: that of the last slice up to it whose
key can be read, or C major. The lines with an exclamation mark are the global settings of the
slices that have any: the key if it can be read, and the tempo in any case. Each text that is
refused is warned of once, at the begin of its slice and with the key that stays in force. -/
theorem keys_in_force {document : Json} {r : Recording}
    (hdocument : ofDocument document = .ok r) (settings : Settings) :
    ∃ slices t, r.slices = .ok slices ∧ r.transcribe settings = .ok t ∧
      (∀ slice ∈ slices, slice.globals = r.commandsAt slice.beginTick) ∧
      (∀ text key, KeySignature.read? text = some key ↔ KeySignature.IsText text key) ∧
      (linesOf t.text).filterMap Line.chordNames? =
        slices.zipIdx.flatMap (fun s => (s.1.chords (Plan.of r settings)).map
          (Chord.names (keyInForce .cMajor slices s.2))) ∧
      (linesOf t.text).filter (fun line => '!' ∈ line) =
        (slices.filterMap Slice.settings?).map
          (fun settings => (Line.globals settings).text.toList) ∧
      t.warnings.filter (fun w => w.kind = .invalidKeySignature) =
        slices.zipIdx.filterMap (fun s => s.1.refusedKey?.map (fun text =>
          (keyInForce .cMajor slices s.2).warning s.1.beginTick (.invalidKey text))) := by
  have hbuilt := ofDocument_built hdocument
  have hrep := hbuilt.wellFormed
  have hp := Plan.proper_of hrep settings
  obtain ⟨slices, s, R, hslices, hhas, hscore, _, hpaged⟩ := exists_paged hbuilt settings
  refine ⟨slices, _, hslices, bind_eq_ok.mpr ⟨slices, hslices, bind_eq_ok.mpr ⟨s, hscore, rfl⟩⟩,
    fun slice hslice => globals_of_mem hrep hslices hslice,
    fun text key => KeySignature.read?_eq_some, ?names, ?settings, ?warnings⟩
  case names =>
    have hnames := (Agrees.start (Plan.of r settings).tables).names_run hp
      (Plan.valid_actions hp hhas) (Plan.score_eq_ok.mp hscore)
    have hspelled := KeySignature.spelled_sliceActions_flatMap (Plan.of r settings) .cMajor slices 0
    rw [withKeys_eq, List.flatMap_map, ← Plan.actions_eq] at hspelled
    rw [Plan.filterMap_chordNames?_textOf _ hpaged, hnames]
    exact hspelled
  case settings =>
    rw [Plan.filter_linesOf_textOf _ hpaged, Plan.settings_of_score hscore]
  case warnings =>
    have hkeys := Plan.keyWarnings_of_score hscore
    rw [KeySignature.warnings_withKeys, withKeys_eq, List.filterMap_map] at hkeys
    change (r.cutWarnings ++ s.warnings).filter _ = _
    rw [List.filter_append, filter_cutWarnings, List.nil_append]
    exact hkeys

/-- The document of three notes, with a key at the first one, a text that is no key and a tempo at
the second one, and another spelling of a key at the third one. -/
def documentOfRefusedKey : Json :=
  .obj
    [("resolution", .int 480), ("end_tick", .int 1440),
      ("channels", .obj [("0", .obj [("notes", .arr ([0, 480, 960].map (fun tick =>
        .obj [("tick", .int tick), ("note", .int 66), ("length", .int 480)])))])]),
      ("globals", .arr
        [.obj [("tick", .int 0), ("key", .str "2/0")],
          .obj [("tick", .int 480), ("key", .str "9/0"), ("tempo", .int 90)],
          .obj [("tick", .int 960), ("key", .str " -6/+0_1")]])]

/-- A key that is refused keeps the one before it in force, and its slice still has its tempo. -/
theorem keys_in_force_refused :
    ∃ r t, ofDocument documentOfRefusedKey = .ok r ∧ r.transcribe {} = .ok t ∧
      (linesOf t.text).filterMap Line.chordNames? = [["f"], ["f"], ["g"]] ∧
      (linesOf t.text).filter (fun line => '!' ∈ line) =
        ["(key-signature! [:d :major])".toList, "(tempo! 90)".toList,
          "(key-signature! [:e :flat :minor])".toList] ∧
      t.warnings.filter (fun w => w.kind = .invalidKeySignature) =
        [{ kind := .invalidKeySignature
           message := "invalid key signature '9/0'; keeping 2/0"
           tick := some 480 }] := by
  obtain ⟨r, hdocument, hslices⟩ := exists_eq_ok
    (show (ofDocument documentOfRefusedKey).toOption.any (fun r => r.slices.toOption.any
      (fun slices =>
        slices.zipIdx.flatMap (fun s => (s.1.chords (Plan.of r {})).map
            (Chord.names (keyInForce .cMajor slices s.2))) = [["f"], ["f"], ["g"]] ∧
          (slices.filterMap Slice.settings?).map
              (fun settings => (Line.globals settings).text.toList) =
            ["(key-signature! [:d :major])".toList, "(tempo! 90)".toList,
              "(key-signature! [:e :flat :minor])".toList] ∧
          slices.zipIdx.filterMap (fun s => s.1.refusedKey?.map (fun text =>
              (keyInForce .cMajor slices s.2).warning s.1.beginTick (.invalidKey text))) =
            [{ kind := .invalidKeySignature
               message := "invalid key signature '9/0'; keeping 2/0"
               tick := some 480 }])) = true by decide +kernel)
  obtain ⟨slices, t, hok, htranscribe, _, _, hnames, hsettings, hwarnings⟩ :=
    keys_in_force hdocument {}
  simp only [hok, Except.toOption, Option.any_some, decide_eq_true_eq] at hslices
  obtain ⟨hspelled, hwritten, hrefused⟩ := hslices
  exact ⟨r, t, hdocument, htranscribe, hnames.trans hspelled, hsettings.trans hwritten,
    hwarnings.trans hrefused⟩

end Recording

end Transcription
