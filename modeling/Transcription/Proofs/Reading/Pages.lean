import Transcription.Proofs.Recording.Tempo
import Transcription.Proofs.Reading.Text
import Transcription.Transcript

/-!
# The lines of a text

The text of a score is its lines, each ended by a line feed, without the empty lines at both ends;
the statistics follow after an empty line and begin with a heading of their own. No line of a score
has a line feed in it, as long as its tempos are numbers. So the lines of a score are found again in
its text, up to the empty ones at both ends.
-/

namespace Transcription

/-! ### The lines of a text -/

/-- The lines of a text. -/
def linesOf (text : String) : List (List Char) := text.toList.splitOn '\n'

/-- The heading of the statistics. -/
def statisticsHeading : List Char := "# STATISTICS:".toList

/-- The lines of a text before the statistics. -/
def bodyOf (text : String) : List (List Char) :=
  (linesOf text).takeWhile (fun line => line ≠ statisticsHeading)

/-! ### The characters of lines -/

/-- The characters of keys. -/
def isKeyChar (c : Char) : Bool := c.isAlpha || c ∈ ['[', ':', ' ', ']']

/-- A key consists of the characters of keys. -/
theorem isKeyChar_of_mem_token (k : KeySignature) {c : Char} (hc : c ∈ k.token.toList) :
    isKeyChar c = true := by
  have hall : ∀ (m : Fin 2) (n : Fin 15), ∀ k ∈ KeySignature.of? ((n.val : Int) - 7) m.val,
      k.token.toList.all isKeyChar = true := by
    decide +kernel
  have hlow := k.low
  have hhigh := k.high
  have hmode : ∃ m : Fin 2, ((m.val : Nat) : Int) = k.mode.number := by
    cases k.mode with
    | major => exact ⟨0, rfl⟩
    | minor => exact ⟨1, rfl⟩
  obtain ⟨m, hm⟩ := hmode
  have hfifths : (((k.fifths + 7).toNat : Nat) : Int) - 7 = k.fifths := by omega
  have hkey := hall m ⟨(k.fifths + 7).toNat, by omega⟩ k (by
    rw [hm, hfifths]
    exact KeySignature.of?_fifths_mode k)
  exact List.all_eq_true.mp hkey c hc

namespace Line

/-- A line whose tempos, if it has any, are numbers. -/
def Printed : Line → Prop
  | globals settings => ∀ text, .tempo text ∈ settings → Tempo.IsText text
  | _ => True

/-- The characters of lines without settings, chords apart. -/
def isLineChar (c : Char) : Bool :=
  isInstrumentChar c || LengthTable.isLengthChar c || c ∈ ['#', ' ', '"', ':', '\t', '%']

/-- Whether a line is neither global settings nor a chord. -/
def isSimple : Line → Bool
  | globals _ => false
  | chord _ => false
  | _ => true

/-- A line that is neither settings nor a chord has the characters of such lines. -/
theorem isLineChar_of_mem {l : Line} (h : l.Legible) (hsimple : l.isSimple = true) {c : Char}
    (hc : c ∈ l.text.toList) : isLineChar c = true := by
  have hnumber {n : Int} (hc : c ∈ (toString n).toList) : isLineChar c = true := by
    rcases mem_toList_toString hc with hdigit | rfl
    · simp [isLineChar, isInstrumentChar, Char.isAlphanum, hdigit]
    · decide
  have hfixed (text : String) (htext : text.toList.all isLineChar = true) (hc : c ∈ text.toList) :
      isLineChar c = true := List.all_eq_true.mp htext c hc
  have hlabel {id : PartId} (hc : c ∈ id.label.toList) : isLineChar c = true := by
    simp [isLineChar, PartId.isInstrumentChar_of_mem_label hc]
  cases l with
  | blank => cases hc
  | comment slice =>
    rw [toList_text_comment, List.mem_append] at hc
    exact hc.elim (hfixed "# SLICE " (by decide)) hnumber
  | globals settings => cases hsimple
  | declare id =>
    have hinstrument (hc : c ∈ id.instrument.toList) : isLineChar c = true := by
      refine @hlabel id ?_
      rw [PartId.toList_label]
      exact List.mem_append_left _ hc
    simp only [toList_text_declare, List.mem_append] at hc
    rcases hc with hc | hc | hc | hc
    · exact hinstrument hc
    · exact hfixed " \"" (by decide) hc
    · exact hlabel hc
    · exact hfixed "\":" (by decide) hc
  | select id =>
    rw [toList_text_select, List.mem_append] at hc
    exact hc.elim hlabel (hfixed ":" (by decide))
  | marker slice =>
    rw [toList_text_marker, List.mem_append] at hc
    exact hc.elim (hfixed "\t%slice-" (by decide)) hnumber
  | rest length =>
    rw [toList_text_rest, List.mem_cons, List.mem_cons] at hc
    rcases hc with rfl | rfl | hc
    · decide
    · decide
    · simp [isLineChar, h.2 c hc]
  | chord line => cases hsimple

/-- No line has a line feed in it. -/
theorem newline_notMem_text {l : Line} (h : l.Legible) (hprinted : l.Printed) :
    '\n' ∉ l.text.toList := by
  intro hc
  have hkey (k : KeySignature) : '\n' ∉ (GlobalSetting.key k).text.toList := by
    rw [toList_text_key, List.mem_append, List.mem_append]
    rintro (hc | hc | hc)
    · exact absurd hc (by decide)
    · exact absurd (isKeyChar_of_mem_token k hc) (by decide)
    · exact absurd hc (by decide)
  have htempo (t : String) (ht : Tempo.IsText t) : '\n' ∉ (GlobalSetting.tempo t).text.toList := by
    rw [toList_text_tempo, List.mem_append, List.mem_append]
    rintro (hc | hc | hc)
    · exact absurd hc (by decide)
    · exact absurd (ht '\n' hc) (by decide)
    · exact absurd hc (by decide)
  cases l with
  | globals settings =>
    rw [toList_text_globals] at hc
    rcases mem_intercalate_singleton hc with hc | ⟨item, hitem, hc⟩
    · cases hc
    · obtain ⟨setting, hsetting, rfl⟩ := List.mem_map.mp hitem
      cases setting with
      | key k => exact hkey k hc
      | tempo t => exact htempo t (hprinted t hsetting) hc
  | chord line =>
    rw [toList_text_chord, List.mem_cons] at hc
    rcases hc with hc | hc
    · cases hc
    · rcases mem_intercalate_singleton hc with hc | ⟨word, hword, hc⟩
      · cases hc
      · exact ChordLine.notMem_allWords h hword (by decide) (by decide) hc
  | _ => exact absurd (isLineChar_of_mem h rfl hc) (by decide)

/-- No line is the heading of the statistics. -/
theorem toList_text_ne_heading {l : Line} (h : l.Legible) : l.text.toList ≠ statisticsHeading := by
  intro heq
  have hnone : readChars? statisticsHeading = none := by decide
  have hread := read?_text h
  rw [read?, heq, hnone] at hread
  cases hread

end Line

/-! ### The lines of a score -/

namespace Score

/-- A score whose lines are found again in its text. -/
structure Paged (s : Score) : Prop where
  legible : ∀ l ∈ s.lines, l.Legible
  printed : ∀ l ∈ s.lines, l.Printed

/-- The texts of the lines of a score. -/
def texts (s : Score) : List (List Char) := s.lines.toList.map (fun l => l.text.toList)

namespace Paged

variable {s : Score} (h : s.Paged)

include h

/-- No line of the score has a line feed in it. -/
theorem newline_notMem : ∀ l ∈ s.texts, '\n' ∉ l := by
  intro l hl
  obtain ⟨line, hline, rfl⟩ := List.mem_map.mp hl
  have hmem := Array.mem_toList_iff.mp hline
  exact Line.newline_notMem_text (h.legible line hmem) (h.printed line hmem)

/-- No line of the score is the heading of the statistics. -/
theorem ne_heading : ∀ l ∈ s.texts, l ≠ statisticsHeading := by
  intro l hl
  obtain ⟨line, hline, rfl⟩ := List.mem_map.mp hl
  exact Line.toList_text_ne_heading (h.legible line (Array.mem_toList_iff.mp hline))

/-- The text of the score is its trimmed lines, joined and ended. -/
theorem toList_text : s.text.toList = ['\n'].intercalate (trimmed s.texts) ++ ['\n'] := by
  have hjoin : ("\n".intercalate (s.lines.toList.map Line.text)).toList =
      ['\n'].intercalate s.texts := by
    rw [String.toList_intercalate, List.map_map]
    rfl
  rw [← strip_intercalate h.newline_notMem, ← hjoin]
  simp [text]

/-- The trimmed lines of the score, joined and divided again, are no heading. -/
theorem ne_heading_of_mem_splitOn :
    ∀ l ∈ (['\n'].intercalate (trimmed s.texts)).splitOn '\n', l ≠ statisticsHeading := by
  intro l hl
  cases htrimmed : trimmed s.texts with
  | nil =>
    rw [htrimmed] at hl
    rw [List.mem_singleton.mp hl]
    decide
  | cons first rest =>
    have hfeed : ∀ l ∈ trimmed s.texts, '\n' ∉ l := fun l hl =>
      h.newline_notMem l (mem_of_mem_trimmed hl)
    rw [List.splitOn_intercalate '\n' hfeed (by simp [htrimmed])] at hl
    exact h.ne_heading l (mem_of_mem_trimmed hl)

end Paged

end Score

/-- The statistics begin with their heading, and further lines follow. -/
theorem Statistics.exists_lines (statistics : Statistics) :
    ∃ more, ("\n".intercalate statistics.lines).toList = statisticsHeading ++ '\n' :: more := by
  have hlines : ∃ first rest, statistics.lines = "# STATISTICS:" :: first :: rest := by
    unfold lines
    cases statistics.channels.entries with
    | nil => exact ⟨_, _, rfl⟩
    | cons e rest => exact ⟨_, _, rfl⟩
  obtain ⟨first, rest, hlines⟩ := hlines
  rw [hlines, String.toList_intercalate, List.map_cons, List.map_cons, List.intercalate_cons_cons,
    List.append_assoc]
  exact ⟨_, rfl⟩

/-- Of two texts with a line feed between them the lines of the first one come first. -/
theorem splitOn_append_newline (cs ds : List Char) :
    (cs ++ '\n' :: ds).splitOn '\n' = cs.splitOn '\n' ++ ds.splitOn '\n' :=
  List.splitOnP_append_cons cs ds (beq_self_eq_true _)

/-- The lines before the statistics end with the empty line before the heading, or with the empty
line at the end. -/
theorem Plan.bodyOf_textOf (p : Plan) {s : Score} (h : s.Paged) :
    bodyOf (p.textOf s) = (['\n'].intercalate (trimmed s.texts)).splitOn '\n' ++ [[]] := by
  have hpage := h.ne_heading_of_mem_splitOn
  have hjoined := h.toList_text
  generalize ['\n'].intercalate (trimmed s.texts) = joined at hpage hjoined ⊢
  have hnil : ([] : List Char) ≠ statisticsHeading := by decide
  have htake (rest : List (List Char)) :
      (joined.splitOn '\n' ++ [] :: rest).takeWhile (fun line => line ≠ statisticsHeading) =
        joined.splitOn '\n' ++ [] :: rest.takeWhile (fun line => line ≠ statisticsHeading) := by
    rw [List.takeWhile_append_of_pos (fun l hl => decide_eq_true (hpage l hl)),
      List.takeWhile_cons_of_pos (by simpa using hnil)]
  unfold bodyOf linesOf textOf
  split
  · obtain ⟨more, hmore⟩ := s.statistics.exists_lines
    have htext : (s.text ++ "\n" ++ "\n".intercalate s.statistics.lines ++ "\n").toList =
        joined ++ '\n' :: ([] ++ '\n' :: (statisticsHeading ++ '\n' :: (more ++ ['\n']))) := by
      simp [hjoined, hmore]
    have hheading : statisticsHeading.splitOn '\n' = [statisticsHeading] :=
      splitOn_of_notMem (by decide)
    rw [htext, splitOn_append_newline, splitOn_append_newline, splitOn_append_newline, hheading,
      List.splitOn_nil, List.singleton_append, htake, List.singleton_append,
      List.takeWhile_cons_of_neg (by simp)]
  · rw [hjoined, splitOn_append_newline, List.splitOn_nil, htake, List.takeWhile_nil]

/-- The lines of a score are those of its text before the statistics, up to empty lines at both
ends. -/
theorem Plan.trimmed_bodyOf_textOf (p : Plan) {s : Score} (h : s.Paged) :
    trimmed (bodyOf (p.textOf s)) = trimmed s.texts := by
  have hfeed : ∀ l ∈ trimmed s.texts, '\n' ∉ l := fun l hl =>
    h.newline_notMem l (mem_of_mem_trimmed hl)
  have hends := trimmed_replicate 0 1 ((['\n'].intercalate (trimmed s.texts)).splitOn '\n')
  rw [List.replicate_zero, List.nil_append, List.replicate_one] at hends
  rw [p.bodyOf_textOf h, hends, trimmed_splitOn_intercalate hfeed, trimmed_trimmed]

end Transcription
