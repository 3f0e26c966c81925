import Transcription.Proofs.Reading.Pages
import Transcription.Proofs.Reading.Performance

/-!
# What is found in a text

Whatever is looked for line by line in a text is found in the lines of the score and nowhere else,
as long as it is found neither in empty lines nor in statistics. The lines of the statistics are
comments of words and numbers. A reader that stops before the statistics makes of a text what it
makes of the lines of the score.
-/

namespace Transcription

namespace Statistics

/-- The characters of statistics. -/
def isLineChar (c : Char) : Bool := c.isAlphanum || c ∈ ['#', ' ', ':', '\t', '-']

/-- A line of statistics: a comment of such characters. -/
def IsLine (line : List Char) : Prop :=
  (∃ cs, line = '#' :: cs) ∧ ∀ c ∈ line, isLineChar c = true

/-- A number has the characters of statistics. -/
theorem isLineChar_of_mem_toString {n : Int} {c : Char} (hc : c ∈ (toString n).toList) :
    isLineChar c = true := by
  rcases mem_toList_toString hc with hdigit | rfl
  · simp [isLineChar, Char.isAlphanum, hdigit]
  · decide

/-- Words and a number make a line of statistics. -/
theorem isLine_number (start : String) (n : Int) (finish : String)
    (hstart : ∃ cs, start.toList = '#' :: cs) (hchars : start.toList.all isLineChar = true)
    (hfinish : finish.toList.all isLineChar = true) :
    IsLine (start ++ toString n ++ finish).toList := by
  obtain ⟨cs, hcs⟩ := hstart
  constructor
  · simp [hcs]
  · intro c hc
    simp only [String.toList_append, List.mem_append] at hc
    rcases hc with (hc | hc) | hc
    · exact List.all_eq_true.mp hchars c hc
    · exact isLineChar_of_mem_toString hc
    · exact List.all_eq_true.mp hfinish c hc

/-- The lines of counters are lines of statistics. -/
theorem isLine_of_mem_counters {counters : Counters} {line : String}
    (h : line ∈ counters.lines) : IsLine line.toList := by
  obtain ⟨counter, _, rfl⟩ := List.mem_map.mp h
  have hchars : ∀ counter ∈ Counter.all,
      ("#\t" ++ counter.heading ++ ": ").toList.all isLineChar = true := by decide +kernel
  have hall : counter ∈ Counter.all := by cases counter <;> decide
  have hline := isLine_number ("#\t" ++ counter.heading ++ ": ") (counters.get counter) ""
    (by simp) (hchars counter hall) rfl
  rwa [String.append_empty] at hline

/-- The lines of statistics are such lines. -/
theorem isLine_of_mem {statistics : Statistics} {line : String} (h : line ∈ statistics.lines) :
    IsLine line.toList := by
  have hfixed {cs : List Char} (hcs : cs.all isLineChar = true) :
      ∀ c ∈ cs, isLineChar c = true := List.all_eq_true.mp hcs
  simp only [lines, List.mem_append, List.mem_flatMap, List.mem_cons, List.not_mem_nil,
    or_false] at h
  rcases h with ((rfl | ⟨e, _, rfl | h⟩) | rfl) | h
  · exact ⟨⟨_, rfl⟩, hfixed (by decide)⟩
  · exact isLine_number "# Channel " e.1 ":" ⟨_, rfl⟩ (by decide) (by decide)
  · exact isLine_of_mem_counters h
  · exact ⟨⟨_, rfl⟩, hfixed (by decide)⟩
  · exact isLine_of_mem_counters h

/-- A line of statistics has no other character in it. -/
theorem IsLine.notMem {line : List Char} (h : IsLine line) {c : Char}
    (hc : isLineChar c = false) : c ∉ line := by
  intro hmem
  rw [h.2 c hmem] at hc
  cases hc

end Statistics

/-! ### Looking through a text -/

namespace Plan

variable {α : Type} {f : List Char → Option α}

/-- What is found in the lines of the score is found in them when they are joined and divided. -/
theorem filterMap_joined (hf : f [] = none) {s : Score} (h : s.Paged) :
    ((['\n'].intercalate (trimmed s.texts)).splitOn '\n').filterMap f = s.texts.filterMap f := by
  have hfeed : ∀ l ∈ trimmed s.texts, '\n' ∉ l := fun l hl =>
    h.newline_notMem l (mem_of_mem_trimmed hl)
  rw [← filterMap_trimmed hf, trimmed_splitOn_intercalate hfeed, filterMap_trimmed hf,
    filterMap_trimmed hf]

/-- What is found in a text line by line is found in the lines of its score, if it is found neither
in empty lines nor in statistics. -/
theorem filterMap_linesOf (p : Plan) {s : Score} (h : s.Paged) (hf : f [] = none)
    (hstatistics : ∀ line, Statistics.IsLine line → f line = none) :
    (linesOf (p.textOf s)).filterMap f = s.texts.filterMap f := by
  have hjoined := h.toList_text
  have hscore := filterMap_joined hf h
  generalize ['\n'].intercalate (trimmed s.texts) = joined at hjoined hscore
  have hend : ([[]] : List (List Char)).filterMap f = [] := List.filterMap_cons_none hf
  unfold linesOf textOf
  split
  · have hlines : ∀ l ∈ s.statistics.lines.map String.toList, Statistics.IsLine l := by
      intro l hl
      obtain ⟨line, hline, rfl⟩ := List.mem_map.mp hl
      exact Statistics.isLine_of_mem hline
    have hnone : (s.statistics.lines.map String.toList).filterMap f = [] :=
      List.filterMap_eq_nil_iff.mpr (fun l hl => hstatistics l (hlines l hl))
    have hne : s.statistics.lines.map String.toList ≠ [] := by simp [Statistics.lines]
    have hdivided : (['\n'].intercalate (s.statistics.lines.map String.toList)).splitOn '\n' =
        s.statistics.lines.map String.toList :=
      List.splitOn_intercalate '\n' (fun l hl => (hlines l hl).notMem (by decide)) hne
    have htext : (s.text ++ "\n" ++ "\n".intercalate s.statistics.lines ++ "\n").toList =
        joined ++ '\n' :: ([] ++ '\n' ::
          (['\n'].intercalate (s.statistics.lines.map String.toList) ++ '\n' :: [])) := by
      simp [hjoined, String.toList_intercalate]
    rw [htext, splitOn_append_newline, splitOn_append_newline, splitOn_append_newline, hdivided,
      List.splitOn_nil, List.filterMap_append, List.filterMap_append, List.filterMap_append, hend,
      hnone, hscore, List.append_nil, List.append_nil, List.append_nil]
  · rw [hjoined, splitOn_append_newline, List.splitOn_nil, List.filterMap_append, hend, hscore,
      List.append_nil]

/-- What is made of the lines of a text, but for empty lines and comments, is made of the lines of
its score. -/
theorem filterMap_readChars?_textOf (p : Plan) {s : Score} (h : s.Paged) {g : Line → Option α}
    (hblank : g .blank = none) (hcomment : ∀ n, g (.comment n) = none) :
    (linesOf (p.textOf s)).filterMap (fun line => (Line.readChars? line).bind g) =
      s.lines.toList.filterMap g := by
  have hstatistics (line : List Char) (hline : Statistics.IsLine line) :
      (Line.readChars? line).bind g = none := by
    obtain ⟨cs, rfl⟩ := hline.1
    rw [Line.readChars?_comment]
    cases (strip? " SLICE " cs).bind readInt? with
    | none => rfl
    | some n => exact hcomment n
  rw [p.filterMap_linesOf h hblank hstatistics, Score.texts, List.filterMap_map]
  refine List.filterMap_congr (fun line hline => ?_)
  have hread := Line.read?_text (h.legible line (Array.mem_toList_iff.mp hline))
  rw [Line.read?] at hread
  rw [Function.comp_apply, hread, Option.bind_some]

/-- What is made of a text line by line, before the statistics, is made of the lines of its score,
if empty lines change nothing. -/
theorem foldlM_bodyOf_textOf {β : Type} (p : Plan) {s : Score} (h : s.Paged)
    {f : β → Line → Option β} (hblank : ∀ b, f b .blank = some b) (b : β) :
    (bodyOf (p.textOf s)).foldlM (fun b line => (Line.readChars? line).bind (f b)) b =
      s.lines.toList.foldlM f b := by
  have hempty (b : β) : (Line.readChars? []).bind (f b) = some b := by
    have hread : Line.readChars? [] = some .blank := rfl
    rw [hread, Option.bind_some, hblank]
  have hlegible : ∀ l ∈ s.lines.toList, l.Legible := fun l hl =>
    h.legible l (Array.mem_toList_iff.mp hl)
  rw [foldlM_trimmed hempty, p.trimmed_bodyOf_textOf h, ← foldlM_trimmed hempty, Score.texts,
    List.foldlM_map]
  exact Line.foldlM_read hlegible f b

end Plan

/-- Read a text up to the statistics. -/
def Reading.ofText? (t : LengthTables) (text : String) : Option Reading :=
  (bodyOf text).foldlM (fun R line => (Line.readChars? line).bind (R.line? t)) {}

/-- A reader that agrees with a score has read it from its whole text. -/
theorem Agrees.ofText? {t : LengthTables} {s : Score} {R : Reading} (h : Agrees t s R)
    (hpaged : s.Paged) (p : Plan) : Reading.ofText? t (p.textOf s) = some R := by
  have hblank (R : Reading) : R.line? t .blank = some R := rfl
  exact (p.foldlM_bodyOf_textOf hpaged hblank {}).trans h.reads

end Transcription
