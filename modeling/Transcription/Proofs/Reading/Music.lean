import Transcription.Proofs.Reading.Reader
import Transcription.Proofs.Text

/-!
# Chords as text

The line of a chord is divided into words by blanks, and the chord itself into its elements by
slashes. What a word is, is seen from its first character. Every chord that is legible is read back
from its words.
-/

namespace Transcription

/-! ### Elements of chords -/

/-- The characters of octave marks. -/
def isMark (c : Char) : Bool := c = '>' || c = '<'

/-- The letters and signs of pitch names. -/
def nameChars : List Char := ['a', 'b', 'c', 'd', 'e', 'f', 'g', '+', '-', '_']

/-- The characters of pitch names. -/
def isNameChar (c : Char) : Bool := c ∈ nameChars

/-- The note that a text is: octave marks, a name and perhaps a length. -/
def Element.readNote (cs : List Char) : Element :=
  let marks := cs.takeWhile isMark
  let cs := cs.dropWhile isMark
  let length := cs.dropWhile isNameChar
  .note (marks.count '>' - marks.count '<') (String.ofList (cs.takeWhile isNameChar))
    (if length = [] then none else some (String.ofList length))

/-- The element that a text is. -/
def Element.read : List Char → Element
  | 'r' :: length => .rest (String.ofList length)
  | cs => readNote cs

/-- A name that can be read: a letter with signs. -/
def IsName (name : String) : Prop :=
  name.toList ≠ [] ∧ ∀ c ∈ name.toList, isNameChar c = true

instance (name : String) : Decidable (IsName name) :=
  decidable_of_iff (name.toList ≠ [] ∧ name.toList.all isNameChar = true) (by simp [IsName])

/-- An element that can be read. -/
def Element.Legible : Element → Prop
  | note _ name length => IsName name ∧ ∀ l ∈ length, LengthTable.IsLength l
  | rest length => LengthTable.IsLength length

/-- The characters of lengths do not occur in names. -/
theorem isNameChar_of_isLengthChar {c : Char} (h : LengthTable.isLengthChar c = true) :
    isNameChar c = false := by
  have hall : nameChars.all (fun c => !LengthTable.isLengthChar c) = true := by decide
  rw [isNameChar, decide_eq_false_iff_not]
  intro hmem
  have hnot := List.all_eq_true.mp hall c hmem
  rw [h] at hnot
  cases hnot

/-- The characters of names are no octave marks. -/
theorem isMark_of_isNameChar {c : Char} (h : isNameChar c = true) : isMark c = false := by
  have hall : nameChars.all (fun c => !isMark c) = true := by decide
  have hnot := List.all_eq_true.mp hall c (by simpa [isNameChar] using h)
  simpa using hnot

private theorem toList_octaveMarks (shift : Int) : (octaveMarks shift).toList =
    List.replicate shift.natAbs (if 0 < shift then '>' else '<') := by
  rw [octaveMarks, String.toList_ofList]

private theorem isMark_of_mem_octaveMarks {shift : Int} {c : Char}
    (hc : c ∈ (octaveMarks shift).toList) : isMark c = true := by
  rw [toList_octaveMarks] at hc
  rw [List.eq_of_mem_replicate hc]
  by_cases h : 0 < shift <;> simp [h, isMark]

private theorem count_octaveMarks (shift : Int) :
    (((octaveMarks shift).toList.count '>' : Nat) : Int) - (octaveMarks shift).toList.count '<' =
      shift := by
  rw [toList_octaveMarks]
  by_cases h : 0 < shift
  · have hne : ¬ ('>' = '<') := by decide
    simp only [h, if_true, List.count_replicate_self, List.count_replicate, beq_iff_eq, hne,
      if_false]
    omega
  · have hne : ¬ ('<' = '>') := by decide
    simp only [h, if_false, List.count_replicate_self, List.count_replicate, beq_iff_eq, hne]
    omega

private theorem Element.read_of_head_ne {cs : List Char} (h : ∀ c ∈ cs.head?, c ≠ 'r') :
    Element.read cs = Element.readNote cs := by
  unfold Element.read
  split
  · exact absurd rfl (h 'r' rfl)
  · rfl

/-- A note begins with an octave mark or with its name. -/
theorem Element.head_note {shift : Int} {name : String} {length : Option String}
    (h : (Element.note shift name length).Legible) :
    ∃ first rest, (Element.note shift name length).text.toList = first :: rest ∧
      (isMark first = true ∨ isNameChar first = true) := by
  obtain ⟨⟨hname, hchars⟩, _⟩ := h
  simp only [Element.text, String.toList_append, List.append_assoc]
  cases hmarks : (octaveMarks shift).toList with
  | nil =>
    obtain ⟨first, rest, heq⟩ := List.exists_cons_of_ne_nil hname
    rw [heq]
    exact ⟨first, _, rfl, Or.inr (hchars first (heq ▸ List.mem_cons_self))⟩
  | cons mark rest =>
    exact ⟨mark, _, rfl, Or.inl (isMark_of_mem_octaveMarks (hmarks ▸ List.mem_cons_self))⟩

/-- A note is read back from its text. -/
theorem Element.read_note {shift : Int} {name : String} {length : Option String}
    (h : (Element.note shift name length).Legible) :
    Element.read (Element.note shift name length).text.toList = .note shift name length := by
  obtain ⟨first, rest, hhead, hfirst⟩ := head_note h
  obtain ⟨⟨hname, hchars⟩, hlength⟩ := h
  have hrest : ∀ c ∈ (length.getD "").toList.head?, isNameChar c = false := by
    intro c hc
    cases length with
    | none => simp at hc
    | some l =>
      have hmem : c ∈ l.toList := List.mem_of_mem_head? hc
      exact isNameChar_of_isLengthChar ((hlength l rfl).2 c hmem)
  have hmark : ∀ c ∈ (name.toList ++ (length.getD "").toList).head?, isMark c = false := by
    intro c hc
    obtain ⟨first, rest, heq⟩ := List.exists_cons_of_ne_nil hname
    rw [heq, List.cons_append, List.head?_cons, Option.mem_some_iff] at hc
    exact isMark_of_isNameChar (hchars c (heq ▸ hc ▸ List.mem_cons_self))
  have hlast : (if (length.getD "").toList = [] then none
      else some (String.ofList (length.getD "").toList)) = length := by
    cases length with
    | none => simp
    | some l =>
      simp only [Option.getD_some]
      rw [if_neg (hlength l rfl).1, String.ofList_toList]
  obtain ⟨htake, hdrop⟩ := takeWhile_dropWhile_append (fun c => isMark_of_mem_octaveMarks) hmark
  obtain ⟨htake', hdrop'⟩ := takeWhile_dropWhile_append hchars hrest
  have htext : (Element.note shift name length).text.toList =
      (octaveMarks shift).toList ++ (name.toList ++ (length.getD "").toList) := by
    simp [Element.text]
  have hne : ∀ c ∈ (Element.note shift name length).text.toList.head?, c ≠ 'r' := by
    intro c hc
    rw [hhead, List.head?_cons, Option.mem_some_iff] at hc
    rintro rfl
    rw [hc] at hfirst
    exact absurd hfirst (by decide)
  rw [read_of_head_ne hne, htext, readNote, htake, hdrop, htake', hdrop', hlast,
    count_octaveMarks, String.ofList_toList]

/-- A legible element is read back from its text. -/
theorem Element.read_text {e : Element} (h : e.Legible) : Element.read e.text.toList = e := by
  cases e with
  | note shift name length => exact read_note h
  | rest length => simp [Element.text, restText, Element.read]

/-- The characters of elements. -/
def isElementChar (c : Char) : Bool :=
  isMark c || isNameChar c || LengthTable.isLengthChar c || c = 'r'

/-- A legible element consists of the characters of elements. -/
theorem Element.isElementChar_of_mem {e : Element} (h : e.Legible) {c : Char}
    (hc : c ∈ e.text.toList) : isElementChar c = true := by
  cases e with
  | note shift name length =>
    simp only [Element.text, String.toList_append, List.mem_append] at hc
    rcases hc with (hc | hc) | hc
    · simp [isElementChar, isMark_of_mem_octaveMarks hc]
    · simp [isElementChar, h.1.2 c hc]
    · cases length with
      | none => simp at hc
      | some l => simp [isElementChar, (h.2 l rfl).2 c hc]
  | rest length =>
    simp only [Element.text, restText, String.toList_append, List.mem_append] at hc
    rcases hc with hc | hc
    · have hr : c = 'r' := by simpa using hc
      simp [isElementChar, hr]
    · simp [isElementChar, h.2 c hc]

/-! ### Chords -/

namespace ChordLine

/-- Read the jump among the words of a chord's line. -/
def readJump? : List (List Char) → Option (Option Int × List (List Char))
  | ('@' :: word) :: words =>
    ((strip? "slice-" word).bind readInt?).map (fun slice => (some slice, words))
  | words => some (none, words)

/-- Read the rest before the chord. -/
def readGap : List (List Char) → Option String × List (List Char)
  | ('r' :: length) :: words => (some (String.ofList length), words)
  | words => (none, words)

/-- The setting that a word begins. -/
def setting? (word : List Char) : Option (Int → Attribute) :=
  if word = ['(', 'q', 'u', 'a', 'n', 't'] then some .quant
  else if word = ['(', 'v', 'o', 'l'] then some .volume
  else none

/-- Read the settings, each of two words. -/
def readAttributes? : List (List Char) → Option (List Attribute × List (List Char))
  | word :: value :: words =>
    match setting? word with
    | none => some ([], word :: value :: words)
    | some setting => do
      let percent ← (stripEnd? ")" value).bind readInt?
      let (attributes, words) ← readAttributes? words
      return (setting percent :: attributes, words)
  | words => some ([], words)

/-- The chord that the words of a line are. -/
def read? (words : List (List Char)) : Option ChordLine := do
  let (jump, words) ← readJump? words
  let (gap, words) := readGap words
  let (attributes, words) ← readAttributes? words
  match words with
  | [word] => return { jump, gap, attributes, elements := (word.splitOn '/').map Element.read }
  | _ => none

/-- A chord whose line can be read: its elements begin with a note. -/
structure Legible (c : ChordLine) : Prop where
  gap : ∀ length ∈ c.gap, LengthTable.IsLength length
  elements : ∀ e ∈ c.elements, e.Legible
  first : ∃ shift name length rest, c.elements = .note shift name length :: rest

/-- The words of a setting. -/
def attributeWords : Attribute → List (List Char)
  | .quant percent => [['(', 'q', 'u', 'a', 'n', 't'], (toString percent).toList ++ [')']]
  | .volume percent => [['(', 'v', 'o', 'l'], (toString percent).toList ++ [')']]

/-- The word of a chord. -/
def chordWord (c : ChordLine) : List Char := ['/'].intercalate (c.elements.map (·.text.toList))

/-- All words of a chord's line, the settings in two words each. -/
def allWords (c : ChordLine) : List (List Char) :=
  (c.jump.map (fun n => '@' :: "slice-".toList ++ (toString n).toList)).toList ++
    ((c.gap.map (fun length => 'r' :: length.toList)).toList ++
      (c.attributes.flatMap attributeWords ++ [c.chordWord]))

/-- The word of a legible chord is that of its elements. -/
theorem elements_chordWord {c : ChordLine} (h : c.Legible) :
    (c.chordWord.splitOn '/').map Element.read = c.elements := by
  obtain ⟨shift, name, length, rest, hfirst⟩ := h.first
  rw [chordWord, List.splitOn_intercalate]
  · rw [List.map_map]
    refine (List.map_congr_left (fun e he => Element.read_text (h.elements e he))).trans ?_
    exact List.map_id _
  · intro word hword hslash
    obtain ⟨e, he, rfl⟩ := List.mem_map.mp hword
    exact absurd (Element.isElementChar_of_mem (h.elements e he) hslash) (by decide)
  · rw [hfirst]
    simp

/-- The word of a legible chord begins with an octave mark or the name of a note. -/
theorem head_chordWord {c : ChordLine} (h : c.Legible) :
    ∃ first rest,
      c.chordWord = first :: rest ∧ (isMark first = true ∨ isNameChar first = true) := by
  obtain ⟨shift, name, length, rest, hfirst⟩ := h.first
  have hnote := h.elements (.note shift name length) (hfirst ▸ List.mem_cons_self)
  obtain ⟨first, chars, hhead, hkind⟩ := Element.head_note hnote
  refine ⟨first, ['/'].intercalate (chars :: rest.map (·.text.toList)), ?_, hkind⟩
  rw [chordWord, hfirst, List.map_cons, hhead, List.intercalate_cons_cons_left]

/-- Words of which the first one does not begin with some character. -/
def StartsWithout (c : Char) (words : List (List Char)) : Prop :=
  ∀ word ∈ words.head?, ∀ d ∈ word.head?, d ≠ c

private theorem readJump?_of_startsWithout {words : List (List Char)}
    (h : StartsWithout '@' words) : readJump? words = some (none, words) := by
  unfold readJump?
  split
  · exact absurd rfl (h _ rfl '@' rfl)
  · rfl

private theorem readGap_of_startsWithout {words : List (List Char)}
    (h : StartsWithout 'r' words) : readGap words = (none, words) := by
  unfold readGap
  split
  · exact absurd rfl (h _ rfl 'r' rfl)
  · rfl

/-- The settings before a chord are read from their words. -/
theorem readAttributes?_words (attributes : List Attribute) (word : List Char) :
    readAttributes? (attributes.flatMap attributeWords ++ [word]) = some (attributes, [word]) := by
  induction attributes with
  | nil => rfl
  | cons a rest ih =>
    have hvalue (percent : Int) :
        (stripEnd? ")" ((toString percent).toList ++ [')'])).bind readInt? = some percent := by
      have hstrip := stripEnd?_append ")" (toString percent).toList
      rw [show (")" : String).toList = [')'] from rfl] at hstrip
      rw [hstrip, Option.bind_some, readInt?_toString]
    cases a with
    | quant percent =>
      simp only [List.flatMap_cons, attributeWords, List.cons_append, List.nil_append,
        readAttributes?, setting?, if_true, hvalue, ih]
      rfl
    | volume percent =>
      have hne : ¬ (['(', 'v', 'o', 'l'] = ['(', 'q', 'u', 'a', 'n', 't']) := by decide
      simp only [List.flatMap_cons, attributeWords, List.cons_append, List.nil_append,
        readAttributes?, setting?, if_true, hne, if_false, hvalue, ih]
      rfl

/-- The words after the rest before a chord begin neither like a jump nor like a rest. -/
theorem startsWithout_settings {c : ChordLine} (h : c.Legible) {d : Char}
    (hd : d = '@' ∨ d = 'r' ∨ d = '%') :
    StartsWithout d (c.attributes.flatMap attributeWords ++ [c.chordWord]) := by
  obtain ⟨first, rest, hword, hkind⟩ := head_chordWord h
  have hfirst : first ≠ d := by
    rintro rfl
    rcases hd with rfl | rfl | rfl <;> exact absurd hkind (by decide)
  have hparen : '(' ≠ d := by
    rcases hd with rfl | rfl | rfl <;> decide
  intro word hhead d' hd'
  cases hattributes : c.attributes with
  | nil =>
    rw [hattributes, List.flatMap_nil, List.nil_append, List.head?_cons,
      Option.mem_some_iff] at hhead
    rw [← hhead, hword, List.head?_cons, Option.mem_some_iff] at hd'
    exact hd' ▸ hfirst
  | cons a rest =>
    have hsetting : ∃ w words, attributeWords a = ('(' :: w) :: words := by
      cases a with
      | quant percent => exact ⟨_, _, rfl⟩
      | volume percent => exact ⟨_, _, rfl⟩
    obtain ⟨w, words, hwords⟩ := hsetting
    rw [hattributes, List.flatMap_cons, hwords, List.cons_append, List.cons_append,
      List.head?_cons, Option.mem_some_iff] at hhead
    rw [← hhead, List.head?_cons, Option.mem_some_iff] at hd'
    exact hd' ▸ hparen

/-- The words after the jump before a chord do not begin like a jump. -/
theorem startsWithout_gap {c : ChordLine} (h : c.Legible) :
    StartsWithout '@' ((c.gap.map (fun length => 'r' :: length.toList)).toList ++
      (c.attributes.flatMap attributeWords ++ [c.chordWord])) := by
  cases hgap : c.gap with
  | none => exact startsWithout_settings h (Or.inl rfl)
  | some length =>
    intro word hhead d hd
    rw [Option.map_some, Option.toList_some, List.cons_append, List.head?_cons,
      Option.mem_some_iff] at hhead
    rw [← hhead, List.head?_cons, Option.mem_some_iff] at hd
    rw [← hd]
    decide

/-- A legible chord is read back from its words. -/
theorem read?_allWords {c : ChordLine} (h : c.Legible) : read? c.allWords = some c := by
  have hjump : readJump? c.allWords = some (c.jump,
      (c.gap.map (fun length => 'r' :: length.toList)).toList ++
        (c.attributes.flatMap attributeWords ++ [c.chordWord])) := by
    unfold allWords
    cases c.jump with
    | none => exact readJump?_of_startsWithout (startsWithout_gap h)
    | some slice =>
      have hnumber : (strip? "slice-" ("slice-".toList ++ (toString slice).toList)).bind
          readInt? = some slice := by
        rw [strip?_append, Option.bind_some, readInt?_toString]
      simp only [Option.map_some, Option.toList_some, List.cons_append, List.nil_append,
        readJump?, hnumber]
  have hgap : readGap ((c.gap.map (fun length => 'r' :: length.toList)).toList ++
      (c.attributes.flatMap attributeWords ++ [c.chordWord])) =
        (c.gap, c.attributes.flatMap attributeWords ++ [c.chordWord]) := by
    cases c.gap with
    | none => exact readGap_of_startsWithout (startsWithout_settings h (Or.inr (Or.inl rfl)))
    | some length => simp [readGap]
  have hattributes := readAttributes?_words c.attributes c.chordWord
  simp only [read?, hjump, Option.bind_eq_bind, Option.bind_some, hgap, hattributes,
    elements_chordWord h, Option.pure_def]

/-- The characters of the words of a chord's line, settings apart. -/
def isWordChar (c : Char) : Bool := isElementChar c || c ∈ ['@', 's', 'l', 'i', '/']

/-- The characters of settings. -/
def isSettingChar (c : Char) : Bool :=
  c.isDigit || c ∈ ['-', '(', 'q', 'u', 'a', 'n', 't', 'v', 'o', 'l', ')']

/-- The words of settings have the characters of settings. -/
theorem isSettingChar_of_mem {a : Attribute} {word : List Char} (hword : word ∈ attributeWords a)
    {d : Char} (hd : d ∈ word) : isSettingChar d = true := by
  have hvalue (n : Int) (hd : d ∈ (toString n).toList ++ [')']) : isSettingChar d = true := by
    rcases List.mem_append.mp hd with hd | hd
    · rcases mem_toList_toString hd with hdigit | rfl
      · simp [isSettingChar, hdigit]
      · decide
    · rw [List.mem_singleton.mp hd]
      decide
  have hname (name : List Char) (hname : name.all isSettingChar = true) (hd : d ∈ name) :
      isSettingChar d = true := List.all_eq_true.mp hname d hd
  cases a with
  | quant percent =>
    rcases List.mem_cons.mp hword with rfl | hword
    · exact hname _ (by decide) hd
    · exact hvalue percent (List.mem_singleton.mp hword ▸ hd)
  | volume percent =>
    rcases List.mem_cons.mp hword with rfl | hword
    · exact hname _ (by decide) hd
    · exact hvalue percent (List.mem_singleton.mp hword ▸ hd)

/-- Every word of a legible chord's line has the characters of words or is one of a setting. -/
theorem isWordChar_of_mem {c : ChordLine} (h : c.Legible) {word : List Char}
    (hword : word ∈ c.allWords) :
    (∀ d ∈ word, isWordChar d = true) ∨ ∃ a ∈ c.attributes, word ∈ attributeWords a := by
  have hdigit {d : Char} (hd : d.isDigit = true) : isWordChar d = true := by
    simp [isWordChar, isElementChar, LengthTable.isLengthChar, Length.isTokenChar, hd]
  simp only [allWords, List.mem_append, Option.mem_toList, Option.map_eq_some_iff,
    List.mem_flatMap, List.mem_singleton] at hword
  rcases hword with ⟨n, _, rfl⟩ | ⟨length, hlength, rfl⟩ | ⟨a, ha, hword⟩ | rfl
  · refine .inl (fun d hd => ?_)
    rw [List.cons_append, List.mem_cons, List.mem_append] at hd
    rcases hd with rfl | hd | hd
    · decide
    · exact List.all_eq_true.mp (by decide : "slice-".toList.all isWordChar = true) d hd
    · rcases mem_toList_toString hd with hd | rfl
      · exact hdigit hd
      · decide
  · refine .inl (fun d hd => ?_)
    rcases List.mem_cons.mp hd with rfl | hd
    · decide
    · simp [isWordChar, isElementChar, (h.gap length hlength).2 d hd]
  · exact .inr ⟨a, ha, hword⟩
  · refine .inl (fun d hd => ?_)
    rcases mem_intercalate_singleton hd with rfl | ⟨text, htext, hd⟩
    · decide
    · obtain ⟨e, he, rfl⟩ := List.mem_map.mp htext
      simp [isWordChar, Element.isElementChar_of_mem (h.elements e he) hd]

/-- A character that is neither one of words nor one of settings is in no word of a legible chord's
line. -/
theorem notMem_allWords {c : ChordLine} (h : c.Legible) {word : List Char}
    (hword : word ∈ c.allWords) {d : Char} (hd : isWordChar d = false)
    (hd' : isSettingChar d = false) : d ∉ word := by
  intro hmem
  rcases isWordChar_of_mem h hword with hchars | ⟨a, _, hsetting⟩
  · rw [hchars d hmem] at hd
    cases hd
  · rw [isSettingChar_of_mem hsetting hmem] at hd'
    cases hd'

private theorem toString_text (s : String) : toString s = s := rfl

private theorem toList_attribute (a : Attribute) :
    a.text.toList = [' '].intercalate (attributeWords a) := by
  cases a with
  | quant percent => simp [Attribute.text, attributeWords, toString_text]
  | volume percent => simp [Attribute.text, attributeWords, toString_text]

/-- The text of a chord's line is a tab with its words, separated by blanks. -/
theorem toList_text (c : ChordLine) :
    c.text.toList = '\t' :: [' '].intercalate c.allWords := by
  let groups : List (List (List Char)) :=
    (c.jump.map (fun n => ['@' :: "slice-".toList ++ (toString n).toList])).toList ++
      ((c.gap.map (fun length => ['r' :: length.toList])).toList ++
        (c.attributes.map attributeWords ++ [[c.chordWord]]))
  have hne : ∀ g ∈ groups, g ≠ [] := by
    intro g hg
    simp only [groups, List.mem_append, Option.mem_toList, Option.map_eq_some_iff, List.mem_map,
      List.mem_singleton] at hg
    rcases hg with ⟨_, _, rfl⟩ | ⟨_, _, rfl⟩ | ⟨a, _, rfl⟩ | rfl
    · exact List.cons_ne_nil _ _
    · exact List.cons_ne_nil _ _
    · cases a <;> exact List.cons_ne_nil _ _
    · exact List.cons_ne_nil _ _
  have hflatten : groups.flatten = c.allWords := by
    unfold groups allWords
    cases c.jump <;> cases c.gap <;> simp [List.flatMap]
  have hwords : c.words.map String.toList = groups.map [' '].intercalate := by
    unfold groups words
    cases c.jump <;> cases c.gap <;>
      simp [toList_attribute, restText, chordWord, String.toList_intercalate, Function.comp_def,
        toString_text]
  rw [text, String.toList_append, String.toList_intercalate, hwords,
    ← hflatten, ← intercalate_map_intercalate hne]
  rfl

end ChordLine

end Transcription
