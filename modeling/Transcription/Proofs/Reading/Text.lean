import Transcription.Proofs.Reading.Music

/-!
# Lines as text

The text of a line says which line it is: empty lines, comments, global settings, parts and music
are told apart by their first characters. A key is read from its first note, by the place of the
note in the circle of fifths, and a part by its label. Every line that is legible is read back from
its text.
-/

namespace Transcription

/-! ### Reading -/

/-- What the sign of a key's first note adds to its place in the circle of fifths. -/
def signPlace? (word : List Char) : Option Int :=
  if word = ":sharp".toList then some 7 else if word = ":flat".toList then some (-7) else none

/-- The mode that the last word of a key names. A minor key has three sharps less than the major key
of the same note. -/
def modePlace? (word : List Char) : Option (Int × Mode) :=
  if word = ":major]".toList then some (0, .major)
  else if word = ":minor]".toList then some (-3, .minor)
  else none

/-- The key signature that a text is. -/
def readKey? (cs : List Char) : Option KeySignature :=
  match cs.splitOn ' ' with
  | [['[', ':', letter], mode] => do
    let place ← Spelling.fifthsOf? letter
    let (shift, mode) ← modePlace? mode
    KeySignature.of? (place + shift) mode.number
  | [['[', ':', letter], sign, mode] => do
    let place ← Spelling.fifthsOf? letter
    let sign ← signPlace? sign
    let (shift, mode) ← modePlace? mode
    KeySignature.of? (place + sign + shift) mode.number
  | _ => none

/-- All parts that there are. -/
def PartId.all : List PartId :=
  (List.finRange channelCount).flatMap (fun channel =>
    (List.finRange 128).map (fun program => ⟨channel, program⟩))

/-- The part with a label. -/
def PartId.ofLabel? (label : List Char) : Option PartId :=
  PartId.all.find? (fun id => id.label.toList = label)

/-- The tempo that a text is. -/
def readTempo? (cs : List Char) : Option GlobalSetting :=
  ((strip? "(tempo! " cs).bind (stripEnd? ")")).map (fun cs => .tempo (String.ofList cs))

/-- The global settings of a key and what follows it: nothing or a tempo. -/
def readAfterKey? (key : KeySignature) : List Char → Option (List GlobalSetting)
  | [')'] => some [.key key]
  | cs => ((strip? ") " cs).bind readTempo?).map (fun tempo => [.key key, tempo])

/-- The global settings that a text is: a key, a tempo or both. -/
def readGlobals? (cs : List Char) : Option (List GlobalSetting) :=
  match strip? "(key-signature! " cs with
  | none => (readTempo? cs).map (fun tempo => [tempo])
  | some cs =>
    (readKey? (cs.takeWhile (· ≠ ')'))).bind (fun key =>
      readAfterKey? key (cs.dropWhile (· ≠ ')')))

/-- The line of music that words are. -/
def readMusic? : List (List Char) → Option Line
  | [('%' :: word)] => ((strip? "slice-" word).bind readInt?).map .marker
  | [('r' :: length)] => some (.rest (String.ofList length))
  | words => (ChordLine.read? words).map .chord

theorem readMusic?_marker (word : List Char) :
    readMusic? ['%' :: word] = ((strip? "slice-" word).bind readInt?).map .marker :=
  rfl

theorem readMusic?_rest (length : List Char) :
    readMusic? ['r' :: length] = some (.rest (String.ofList length)) :=
  rfl

/-- The declaration or selection of a part that a text is. -/
def readPart? (cs : List Char) : Option Line :=
  match cs.splitOn '"' with
  | [label] => ((stripEnd? ":" label).bind PartId.ofLabel?).map .select
  | [name, label, [':']] => do
    let id ← PartId.ofLabel? label
    if name = id.instrument.toList ++ [' '] then return .declare id else none
  | _ => none

/-- The line that a text is. -/
def Line.readChars? : List Char → Option Line
  | [] => some .blank
  | '#' :: cs => ((strip? " SLICE " cs).bind readInt?).map .comment
  | '(' :: cs => (readGlobals? ('(' :: cs)).map .globals
  | '\t' :: cs => readMusic? (cs.splitOn ' ')
  | cs => readPart? cs

theorem Line.readChars?_comment (cs : List Char) :
    Line.readChars? ('#' :: cs) = ((strip? " SLICE " cs).bind readInt?).map .comment :=
  rfl

theorem Line.readChars?_globals (cs : List Char) :
    Line.readChars? ('(' :: cs) = (readGlobals? ('(' :: cs)).map .globals :=
  rfl

theorem Line.readChars?_music (cs : List Char) :
    Line.readChars? ('\t' :: cs) = readMusic? (cs.splitOn ' ') :=
  rfl

/-- The line that a text is. -/
def Line.read? (text : String) : Option Line := Line.readChars? text.toList

/-- Global settings as they are written: a key, a tempo or both, the key first. -/
def IsGlobals (settings : List GlobalSetting) : Prop :=
  (∃ k, settings = [.key k]) ∨ (∃ t, settings = [.tempo t]) ∨ ∃ k t, settings = [.key k, .tempo t]

/-- A line that can be read. -/
def Line.Legible : Line → Prop
  | globals settings => IsGlobals settings
  | rest length => LengthTable.IsLength length
  | chord line => line.Legible
  | _ => True

/-! ### Characters -/

/-- The characters of a tempo. -/
theorem toList_text_tempo (t : String) : (GlobalSetting.tempo t).text.toList =
    "(tempo! ".toList ++ (t.toList ++ ")".toList) := by
  have htext : (GlobalSetting.tempo t).text = "(tempo! " ++ t ++ ")" := rfl
  rw [htext, String.toList_append, String.toList_append, List.append_assoc]

/-- The characters of a key. -/
theorem toList_text_key (k : KeySignature) : (GlobalSetting.key k).text.toList =
    "(key-signature! ".toList ++ (k.token.toList ++ ")".toList) := by
  have htext : (GlobalSetting.key k).text = "(key-signature! " ++ k.token ++ ")" := rfl
  rw [htext, String.toList_append, String.toList_append, List.append_assoc]

namespace Line

/-- The characters of a comment. -/
theorem toList_text_comment (slice : Int) : (comment slice).text.toList =
    "# SLICE ".toList ++ (toString slice).toList :=
  String.toList_append

/-- The characters of global settings are those of each setting, with blanks between them. -/
theorem toList_text_globals (settings : List GlobalSetting) : (globals settings).text.toList =
    [' '].intercalate (settings.map (fun setting => setting.text.toList)) := by
  have htext : (globals settings).text = " ".intercalate (settings.map GlobalSetting.text) := rfl
  rw [htext, String.toList_intercalate, List.map_map]
  rfl

/-- A setting that stands alone is its line. -/
theorem toList_text_globals_singleton (setting : GlobalSetting) :
    (globals [setting]).text.toList = setting.text.toList := by
  simp [toList_text_globals]

/-- There is a blank between two settings. -/
theorem toList_text_globals_pair (setting setting' : GlobalSetting) :
    (globals [setting, setting']).text.toList =
      setting.text.toList ++ ' ' :: setting'.text.toList := by
  simp [toList_text_globals, List.intercalate_cons_cons]

/-- The characters of a declaration. -/
theorem toList_text_declare (id : PartId) : (declare id).text.toList =
    id.instrument.toList ++ (" \"".toList ++ (id.label.toList ++ "\":".toList)) := by
  have htext : (declare id).text = id.instrument ++ " \"" ++ id.label ++ "\":" := rfl
  simp only [htext, String.toList_append, List.append_assoc]

/-- The characters of a selection. -/
theorem toList_text_select (id : PartId) : (select id).text.toList =
    id.label.toList ++ ":".toList :=
  String.toList_append

/-- The characters of a marker. -/
theorem toList_text_marker (slice : Int) : (marker slice).text.toList =
    "\t%slice-".toList ++ (toString slice).toList :=
  String.toList_append

/-- The characters of a rest that stands alone. -/
theorem toList_text_rest (length : String) : (rest length).text.toList =
    '\t' :: 'r' :: length.toList := by
  have htext : (rest length).text = "\t" ++ ("r" ++ length) := rfl
  rw [htext, String.toList_append, String.toList_append]
  rfl

/-- The characters of a chord are its words, with blanks between them, after a tab. -/
theorem toList_text_chord (line : ChordLine) : (chord line).text.toList =
    '\t' :: [' '].intercalate line.allWords :=
  line.toList_text

end Line

/-! ### Keys -/

/-- A key is its first note and its mode in brackets. -/
theorem KeySignature.toList_token (k : KeySignature) : k.token.toList =
    '[' :: ':' :: (k.tonic.toList ++ ' ' :: ':' :: (k.mode.word.toList ++ [']'])) := by
  simp [token]

/-- Every key signature is read back from its text, in which there is no closing parenthesis. -/
theorem readKey?_token (k : KeySignature) :
    readKey? k.token.toList = some k ∧ ')' ∉ k.token.toList := by
  have hall : ∀ (m : Fin 2) (n : Fin 15), ∀ k ∈ KeySignature.of? ((n.val : Int) - 7) m.val,
      readKey? k.token.toList = some k ∧ ')' ∉ k.token.toList := by
    simp only [KeySignature.toList_token]
    decide +kernel
  have hlow := k.low
  have hhigh := k.high
  have hmode : ∃ m : Fin 2, ((m.val : Nat) : Int) = k.mode.number := by
    cases k.mode with
    | major => exact ⟨0, rfl⟩
    | minor => exact ⟨1, rfl⟩
  obtain ⟨m, hm⟩ := hmode
  refine hall m ⟨(k.fifths + 7).toNat, by omega⟩ k ?_
  have hfifths : (((k.fifths + 7).toNat : Nat) : Int) - 7 = k.fifths := by omega
  rw [hm, hfifths]
  exact KeySignature.of?_fifths_mode k

/-! ### Parts -/

/-- The characters of instruments. -/
def isInstrumentChar (c : Char) : Bool := c.isAlphanum || c = '-'

/-- Every instrument is spelled with its characters, of which the first one is a letter. -/
private theorem instrument_spelled : ∀ name ∈ instrumentNames, ∃ cs, name = String.ofList cs ∧
    cs.all isInstrumentChar = true ∧ cs.head?.any Char.isAlpha = true := by
  simp only [instrumentNames, List.forall_mem_cons]
  repeat' apply And.intro
  all_goals first | exact ⟨_, rfl, rfl, rfl⟩ | exact fun name hname => absurd hname List.not_mem_nil

private theorem instrument_chars (program : Program) :
    program.instrument.toList.all isInstrumentChar = true ∧
      program.instrument.toList.head?.any Char.isAlpha = true := by
  have hlength := length_instrumentNames
  have hlt : program.val < instrumentNames.length := by omega
  have hmem : program.instrument ∈ instrumentNames := by
    rw [Program.instrument, List.getD_eq_getElem?_getD, List.getElem?_eq_getElem hlt,
      Option.getD_some]
    exact List.getElem_mem hlt
  obtain ⟨cs, heq, hchars⟩ := instrument_spelled _ hmem
  rwa [heq, String.toList_ofList]

/-- The bytes of a text as one number. -/
private def byteNumber (text : String) : Nat :=
  text.toByteArray.data.toList.foldl (fun n byte => 256 * n + byte.toNat) 0

/-- Different programs have different instruments. -/
theorem Program.instrument_injective {program program' : Program}
    (h : program.instrument = program'.instrument) : program = program' := by
  -- comparing numbers is much faster than comparing texts
  have hnodup : instrumentNames.Nodup := List.Nodup.of_map byteNumber (by decide +kernel)
  have hlength := length_instrumentNames
  have hget (p : Program) (hp : p.val < instrumentNames.length) :
      p.instrument = instrumentNames[p.val] := by
    rw [instrument, List.getD_eq_getElem?_getD, List.getElem?_eq_getElem hp, Option.getD_some]
  rw [hget program (by omega), hget program' (by omega)] at h
  exact Fin.ext (hnodup.getElem_inj_iff.mp h)

/-- A label is an instrument with a channel. -/
theorem Program.toList_labelOn (program : Program) (channel : Int) :
    (program.labelOn channel).toList =
      program.instrument.toList ++ '-' :: 'c' :: 'h' :: (toString channel).toList := by
  simp [labelOn, toString]

/-- Different programs have different labels, and so has one program on different channels, whatever
their numbers are. -/
theorem Program.labelOn_injective {program program' : Program} {channel channel' : Int}
    (h : program.labelOn channel = program'.labelOn channel') :
    program = program' ∧ channel = channel' := by
  -- names of instruments have hyphens too, so a label is cut before its number
  have hsplit (program : Program) (channel : Int) :
      (program.labelOn channel).toList.reverse.takeWhile (· ≠ 'h') =
          (toString channel).toList.reverse ∧
        (program.labelOn channel).toList.reverse.dropWhile (· ≠ 'h') =
          'h' :: 'c' :: '-' :: program.instrument.toList.reverse := by
    have hreverse : (program.labelOn channel).toList.reverse =
        (toString channel).toList.reverse ++
          'h' :: 'c' :: '-' :: program.instrument.toList.reverse := by
      simp [toList_labelOn]
    rw [hreverse]
    refine takeWhile_dropWhile_append (fun c hc => ?_) (by simp)
    have hne : c ≠ 'h' := by
      rintro rfl
      rcases mem_toList_toString (List.mem_reverse.mp hc) with hdigit | hsign
      · exact absurd hdigit (by decide)
      · exact absurd hsign (by decide)
    simpa using hne
  obtain ⟨htake, hdrop⟩ := hsplit program channel
  obtain ⟨htake', hdrop'⟩ := hsplit program' channel'
  rw [h] at htake hdrop
  constructor
  · have heq : program.instrument.toList.reverse = program'.instrument.toList.reverse := by
      simpa using hdrop.symm.trans hdrop'
    exact instrument_injective (String.toList_inj.mp (List.reverse_inj.mp heq))
  · have heq := List.reverse_inj.mp (htake.symm.trans htake')
    have hnumber := readInt?_toString channel
    rw [heq, readInt?_toString] at hnumber
    exact (Option.some.inj hnumber).symm

namespace PartId

/-- The label of a part is its instrument with its channel. -/
theorem toList_label (id : PartId) : id.label.toList =
    id.instrument.toList ++ '-' :: 'c' :: 'h' :: (toString (id.channel.val : Int)).toList :=
  id.program.toList_labelOn id.channel.val

/-- The characters of labels. -/
theorem isInstrumentChar_of_mem_label {id : PartId} {c : Char} (hc : c ∈ id.label.toList) :
    isInstrumentChar c = true := by
  rw [toList_label, List.mem_append] at hc
  rcases hc with hc | hc
  · exact List.all_eq_true.mp (instrument_chars id.program).1 c hc
  · simp only [List.mem_cons] at hc
    rcases hc with rfl | rfl | rfl | hc
    · decide
    · decide
    · decide
    · rcases mem_toList_toString hc with hc | rfl
      · simp [isInstrumentChar, Char.isAlphanum, hc]
      · decide

/-- Different parts have different labels. -/
theorem label_injective {id id' : PartId} (h : id.label = id'.label) : id = id' := by
  obtain ⟨hprogram, hchannel⟩ := Program.labelOn_injective h
  have hchannel' : id.channel = id'.channel := Fin.ext (by omega)
  cases id
  cases id'
  simp_all

/-- A part is found by its label. -/
theorem ofLabel?_label (id : PartId) : ofLabel? id.label.toList = some id := by
  have hmem : id ∈ all := by
    refine List.mem_flatMap.mpr ⟨id.channel, List.mem_finRange _, ?_⟩
    exact List.mem_map.mpr ⟨id.program, List.mem_finRange _, rfl⟩
  have hsome : (all.find? (fun id' => id'.label.toList = id.label.toList)).isSome := by
    rw [List.find?_isSome]
    exact ⟨id, hmem, by simp⟩
  obtain ⟨id', hfound⟩ := Option.isSome_iff_exists.mp hsome
  have hlabel : id'.label.toList = id.label.toList := by simpa using List.find?_some hfound
  rw [ofLabel?, hfound, label_injective (String.toList_inj.mp hlabel)]

end PartId

/-! ### Lines -/

/-- A tempo is read back from its text. -/
theorem readTempo?_text (t : String) :
    readTempo? (GlobalSetting.tempo t).text.toList = some (.tempo t) := by
  rw [readTempo?, toList_text_tempo, strip?_append, Option.bind_some, stripEnd?_append,
    Option.map_some, String.ofList_toList]

/-- A key is read back with what follows it. -/
theorem readGlobals?_key (k : KeySignature) (cs : List Char) :
    readGlobals? ("(key-signature! ".toList ++ (k.token.toList ++ ')' :: cs)) =
      readAfterKey? k (')' :: cs) := by
  obtain ⟨hread, hparen⟩ := readKey?_token k
  have hchars : ∀ c ∈ k.token.toList, decide (c ≠ ')') = true := by
    intro c hc
    have hne : c ≠ ')' := fun h => hparen (h ▸ hc)
    simpa using hne
  have hhead : ∀ c ∈ (')' :: cs).head?, decide (c ≠ ')') = false := by simp
  obtain ⟨htake, hdrop⟩ := takeWhile_dropWhile_append hchars hhead
  simp only [readGlobals?, strip?_append]
  rw [htake, hdrop, hread, Option.bind_some]

/-- Global settings are read back from their text, which begins with a parenthesis. -/
theorem readGlobals?_text {settings : List GlobalSetting} (h : IsGlobals settings) :
    readGlobals? (Line.globals settings).text.toList = some settings ∧
      ∃ cs, (Line.globals settings).text.toList = '(' :: cs := by
  rcases h with ⟨k, rfl⟩ | ⟨t, rfl⟩ | ⟨k, t, rfl⟩
  · rw [Line.toList_text_globals_singleton, toList_text_key]
    exact ⟨readGlobals?_key k [], _, rfl⟩
  · have hcons : (GlobalSetting.tempo t).text.toList =
        '(' :: 't' :: ("empo! ".toList ++ (t.toList ++ ")".toList)) := by
      rw [toList_text_tempo]
      rfl
    have hnone : strip? "(key-signature! " (GlobalSetting.tempo t).text.toList = none := by
      rw [hcons]
      rfl
    rw [Line.toList_text_globals_singleton]
    refine ⟨?_, _, hcons⟩
    rw [readGlobals?, hnone, readTempo?_text]
    rfl
  · have htext : (Line.globals [.key k, .tempo t]).text.toList =
        "(key-signature! ".toList ++
          (k.token.toList ++ ')' :: (' ' :: (GlobalSetting.tempo t).text.toList)) := by
      rw [Line.toList_text_globals_pair, toList_text_key, List.append_assoc, List.append_assoc]
      rfl
    have hstrip : strip? ") " (')' :: ' ' :: (GlobalSetting.tempo t).text.toList) =
        some (GlobalSetting.tempo t).text.toList := strip?_append ") " _
    rw [htext]
    refine ⟨?_, _, rfl⟩
    rw [readGlobals?_key, readAfterKey?, hstrip, Option.bind_some, readTempo?_text]
    · rfl
    · simp

private theorem quote_notMem_label (id : PartId) : '"' ∉ id.label.toList := fun hc =>
  absurd (PartId.isInstrumentChar_of_mem_label hc) (by decide)

/-- A selection is read back from its text. -/
theorem readPart?_select (id : PartId) :
    readPart? (Line.select id).text.toList = some (.select id) := by
  have hquote : '"' ∉ (Line.select id).text.toList := by
    intro hc
    rw [Line.toList_text_select, List.mem_append] at hc
    rcases hc with hc | hc
    · exact quote_notMem_label id hc
    · exact absurd hc (by decide)
  rw [readPart?, splitOn_of_notMem hquote]
  simp only [Line.toList_text_select, stripEnd?_append, Option.bind_some, PartId.ofLabel?_label,
    Option.map_some]

/-- A declaration is read back from its text. -/
theorem readPart?_declare (id : PartId) :
    readPart? (Line.declare id).text.toList = some (.declare id) := by
  have htext : (Line.declare id).text.toList = ['"'].intercalate
      [id.instrument.toList ++ [' '], id.label.toList, [':']] := by
    simp [Line.toList_text_declare, List.intercalate_cons_cons]
  have hquote : ∀ word ∈ [id.instrument.toList ++ [' '], id.label.toList, [':']],
      '"' ∉ word := by
    intro word hword hc
    simp only [List.mem_cons, List.not_mem_nil, or_false] at hword
    rcases hword with rfl | rfl | rfl
    · rcases List.mem_append.mp hc with hc | hc
      · have hchar := List.all_eq_true.mp (instrument_chars id.program).1 '"' hc
        exact absurd hchar (by decide)
      · exact absurd hc (by decide)
    · exact quote_notMem_label id hc
    · exact absurd hc (by decide)
  rw [readPart?, htext, List.splitOn_intercalate _ hquote (List.cons_ne_nil _ _)]
  simp only [PartId.ofLabel?_label, Option.bind_eq_bind, Option.bind_some, if_true,
    Option.pure_def]

/-- A text that begins with a letter declares or selects a part. -/
theorem Line.readChars?_of_alpha {c : Char} (hc : c.isAlpha = true) (cs : List Char) :
    Line.readChars? (c :: cs) = readPart? (c :: cs) := by
  unfold Line.readChars?
  split
  · cases ‹_ = []›
  · rename_i h
    exact absurd hc ((List.cons.inj h).1 ▸ by decide)
  · rename_i h
    exact absurd hc ((List.cons.inj h).1 ▸ by decide)
  · rename_i h
    exact absurd hc ((List.cons.inj h).1 ▸ by decide)
  · rfl

/-- The words of a legible chord are music. -/
theorem readMusic?_allWords {c : ChordLine} (h : c.Legible) :
    readMusic? c.allWords = some (.chord c) := by
  obtain ⟨first, rest, hword, hkind⟩ := ChordLine.head_chordWord h
  have honly (word : List Char) (hwords : c.allWords = [word]) : word = first :: rest := by
    have hlast : c.allWords.getLast? = some c.chordWord := by simp [ChordLine.allWords]
    rw [hwords, hword, List.getLast?_singleton] at hlast
    exact Option.some.inj hlast
  have hread : readMusic? c.allWords = (ChordLine.read? c.allWords).map .chord := by
    unfold readMusic?
    split
    · rename_i hwords
      rw [← (List.cons.inj (honly _ hwords)).1] at hkind
      exact absurd hkind (by decide)
    · rename_i hwords
      rw [← (List.cons.inj (honly _ hwords)).1] at hkind
      exact absurd hkind (by decide)
    · rfl
  rw [hread, ChordLine.read?_allWords h, Option.map_some]

namespace Line

private theorem exists_letter (id : PartId) :
    ∃ c cs, id.instrument.toList = c :: cs ∧ c.isAlpha = true := by
  have hhead := (instrument_chars id.program).2
  cases hchars : id.instrument.toList with
  | nil =>
    rw [PartId.instrument] at hchars
    simp [hchars] at hhead
  | cons c cs =>
    rw [PartId.instrument] at hchars
    exact ⟨c, cs, rfl, by simpa [hchars] using hhead⟩

private theorem read?_comment (slice : Int) :
    read? (comment slice).text = some (comment slice) := by
  have htext : (comment slice).text.toList =
      '#' :: (" SLICE ".toList ++ (toString slice).toList) := toList_text_comment slice
  rw [read?, htext, readChars?_comment, strip?_append, Option.bind_some, readInt?_toString,
    Option.map_some]

private theorem read?_declare (id : PartId) : read? (declare id).text = some (declare id) := by
  obtain ⟨c, cs, hinstrument, hc⟩ := exists_letter id
  have htext : (declare id).text.toList =
      c :: (cs ++ (" \"".toList ++ (id.label.toList ++ "\":".toList))) := by
    rw [toList_text_declare, hinstrument]
    rfl
  have hread := readPart?_declare id
  rw [htext] at hread
  rw [read?, htext, readChars?_of_alpha hc, hread]

private theorem read?_select (id : PartId) : read? (select id).text = some (select id) := by
  obtain ⟨c, cs, hinstrument, hc⟩ := exists_letter id
  have htext : ∃ rest, (select id).text.toList = c :: rest := by
    rw [toList_text_select, PartId.toList_label, hinstrument]
    exact ⟨_, rfl⟩
  obtain ⟨rest, htext⟩ := htext
  have hread := readPart?_select id
  rw [htext] at hread
  rw [read?, htext, readChars?_of_alpha hc, hread]

private theorem read?_marker (slice : Int) : read? (marker slice).text = some (marker slice) := by
  have htext : (marker slice).text.toList =
      '\t' :: '%' :: ("slice-".toList ++ (toString slice).toList) := toList_text_marker slice
  have hblank : ' ' ∉ '%' :: ("slice-".toList ++ (toString slice).toList) := by
    intro hc
    rw [List.mem_cons, List.mem_append] at hc
    rcases hc with hc | hc | hc
    · exact absurd hc (by decide)
    · exact absurd hc (by decide)
    · rcases mem_toList_toString hc with hc | hc
      · exact absurd hc (by decide)
      · exact absurd hc (by decide)
  rw [read?, htext, readChars?_music, splitOn_of_notMem hblank, readMusic?_marker, strip?_append,
    Option.bind_some, readInt?_toString, Option.map_some]

private theorem read?_rest {length : String} (h : LengthTable.IsLength length) :
    read? (rest length).text = some (rest length) := by
  have hblank : ' ' ∉ 'r' :: length.toList := by
    intro hc
    rcases List.mem_cons.mp hc with hc | hc
    · exact absurd hc (by decide)
    · exact absurd (h.2 ' ' hc) (by decide)
  rw [read?, toList_text_rest, readChars?_music, splitOn_of_notMem hblank, readMusic?_rest,
    String.ofList_toList]

private theorem read?_chord {line : ChordLine} (h : line.Legible) :
    read? (chord line).text = some (chord line) := by
  have hne : line.allWords ≠ [] := by simp [ChordLine.allWords]
  have hblank : ∀ word ∈ line.allWords, ' ' ∉ word := by
    intro word hword
    exact ChordLine.notMem_allWords h hword (by decide) (by decide)
  rw [read?, toList_text_chord, readChars?_music,
    List.splitOn_intercalate _ hblank hne, readMusic?_allWords h]

/-- A legible line is read back from its text. -/
theorem read?_text {l : Line} (h : l.Legible) : read? l.text = some l := by
  cases l with
  | blank => rfl
  | comment slice => exact read?_comment slice
  | globals settings =>
    obtain ⟨hread, cs, htext⟩ := readGlobals?_text h
    rw [htext] at hread
    rw [read?, htext, readChars?_globals, hread, Option.map_some]
  | declare id => exact read?_declare id
  | select id => exact read?_select id
  | marker slice => exact read?_marker slice
  | rest length => exact read?_rest h
  | chord line => exact read?_chord h

end Line

end Transcription
