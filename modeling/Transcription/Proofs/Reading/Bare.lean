import Transcription.Proofs.Reading.Printing
import Transcription.Proofs.Score.Bare

/-!
# Texts without what the settings add

From a text one can take the statistics, the comments of slices, and the settings before chords,
each with the space after it. What is left of the text of a score is the text of the bare score, up
to empty lines at both ends. So the settings add to a text what they name, and change nothing else.
-/

namespace Transcription

/-! ### Settings in texts -/

/-- Whether a text is a number as it is written. -/
def isNumeral (cs : List Char) : Bool := (readInt? cs).any (fun n => (toString n).toList = cs)

/-- A number is a numeral. -/
theorem isNumeral_toString (n : Int) : isNumeral (toString n).toList = true := by
  rw [isNumeral, readInt?_toString, Option.any_some, decide_eq_true_eq]

/-- What follows a setting and the space after it, if a text begins with them. -/
def afterSetting? (cs : List Char) : Option (List Char) :=
  ((strip? "(quant " cs).or (strip? "(vol " cs)).bind (fun cs =>
    if isNumeral (cs.takeWhile (· ≠ ')')) then strip? ") " (cs.dropWhile (· ≠ ')')) else none)

/-- What follows a beginning of a text makes up the text with it. -/
theorem strip?_eq_some {start : String} {cs rest : List Char} (h : strip? start cs = some rest) :
    cs = start.toList ++ rest := by
  obtain ⟨start', hcs, heq⟩ := List.dropPrefix?_eq_some_iff.mp h
  rw [hcs, (beq_iff_eq.mp heq)]

/-- A setting takes up some of a text. -/
theorem length_afterSetting? {cs rest : List Char} (h : afterSetting? cs = some rest) :
    rest.length < cs.length := by
  obtain ⟨value, hname, h⟩ := Option.bind_eq_some_iff.mp h
  have hvalue : value.length < cs.length := by
    rcases Option.or_eq_some_iff.mp hname with hname | ⟨_, hname⟩
    · rw [strip?_eq_some hname, List.length_append]
      exact Nat.lt_add_of_pos_left (by decide)
    · rw [strip?_eq_some hname, List.length_append]
      exact Nat.lt_add_of_pos_left (by decide)
  split at h
  · have hrest := congrArg List.length (strip?_eq_some h)
    have hdrop := (List.dropWhile_sublist (l := value) (fun c => decide (c ≠ ')'))).length_le
    rw [List.length_append] at hrest
    omega
  · cases h

/-- A text without its settings and the space after each of them. -/
def dropSettings : List Char → List Char
  | [] => []
  | c :: cs =>
    match _h : afterSetting? (c :: cs) with
    | some rest => dropSettings rest
    | none => c :: dropSettings cs
termination_by cs => cs.length
decreasing_by
  · exact length_afterSetting? ‹_›
  · exact Nat.lt_succ_self _

/-- Whether a line is the comment with the number of a slice. -/
def isComment (line : List Char) : Bool := (strip? "# SLICE " line).any isNumeral

/-- A line without settings; a comment is left out. -/
def bareLine? (line : List Char) : Option (List Char) :=
  if isComment line then none else some (dropSettings line)

/-- The lines of a text without what the settings add: without the statistics, the comments of
slices and the settings of parts, and without empty lines at both ends. -/
def bareText (text : String) : List (List Char) := trimmed ((bodyOf text).filterMap bareLine?)

/-! ### What is left of lines -/

/-- A setting begins with a parenthesis. -/
theorem afterSetting?_of_ne {c : Char} (h : c ≠ '(') (cs : List Char) :
    afterSetting? (c :: cs) = none := by
  have hnone (start : List Char) : strip? (String.ofList ('(' :: start)) (c :: cs) = none := by
    by_contra hsome
    obtain ⟨rest, hrest⟩ := Option.ne_none_iff_exists'.mp hsome
    have heq := strip?_eq_some hrest
    rw [String.toList_ofList, List.cons_append] at heq
    exact h (List.cons.inj heq).1
  have hquant : strip? "(quant " (c :: cs) = none := hnone "quant ".toList
  have hvolume : strip? "(vol " (c :: cs) = none := hnone "vol ".toList
  rw [afterSetting?, hquant, hvolume]
  rfl

/-- A text without parentheses keeps its characters. -/
theorem dropSettings_append {cs : List Char} (h : '(' ∉ cs) (ds : List Char) :
    dropSettings (cs ++ ds) = cs ++ dropSettings ds := by
  induction cs with
  | nil => rfl
  | cons c cs ih =>
    have hc : c ≠ '(' := fun heq => h (heq ▸ List.mem_cons_self)
    have hrest := ih (fun hmem => h (List.mem_cons_of_mem _ hmem))
    rw [List.cons_append, dropSettings, afterSetting?_of_ne hc]
    simp [hrest]

/-- A text without parentheses has no settings. -/
theorem dropSettings_eq_self {cs : List Char} (h : '(' ∉ cs) : dropSettings cs = cs := by
  have happend := dropSettings_append h []
  rwa [List.append_nil, dropSettings, List.append_nil] at happend

/-- A parenthesis that begins no setting stays. -/
theorem dropSettings_cons {c : Char} {cs : List Char} (h : afterSetting? (c :: cs) = none) :
    dropSettings (c :: cs) = c :: dropSettings cs := by
  rw [dropSettings, h]

/-- The value of a setting is followed by what comes after the space. -/
theorem afterSetting?_text (a : Attribute) (cs : List Char) :
    afterSetting? (a.text.toList ++ ' ' :: cs) = some cs := by
  have hvalue (n : Int) :
      (if isNumeral (((toString n).toList ++ ')' :: ' ' :: cs).takeWhile (· ≠ ')'))
      then strip? ") " (((toString n).toList ++ ')' :: ' ' :: cs).dropWhile (· ≠ ')')) else none) =
        some cs := by
    have hchars : ∀ c ∈ (toString n).toList, decide (c ≠ ')') = true := by
      intro c hc
      rcases mem_toList_toString hc with hc | rfl
      · refine decide_eq_true (fun heq => ?_)
        rw [heq] at hc
        exact absurd hc (by decide)
      · decide
    have hhead : ∀ c ∈ (')' :: ' ' :: cs).head?, decide (c ≠ ')') = false := by simp
    obtain ⟨htake, hdrop⟩ := takeWhile_dropWhile_append hchars hhead
    rw [htake, hdrop, if_pos (isNumeral_toString n)]
    exact strip?_append ") " cs
  cases a with
  | quant percent =>
    have htext : (Attribute.quant percent).text.toList ++ ' ' :: cs =
        "(quant ".toList ++ ((toString percent).toList ++ ')' :: ' ' :: cs) := by
      have hwords : (Attribute.quant percent).text = "(quant " ++ toString percent ++ ")" := rfl
      rw [hwords, String.toList_append, String.toList_append, List.append_assoc, List.append_assoc]
      rfl
    rw [afterSetting?, htext, strip?_append]
    exact hvalue percent
  | volume percent =>
    have htext : (Attribute.volume percent).text.toList ++ ' ' :: cs =
        "(vol ".toList ++ ((toString percent).toList ++ ')' :: ' ' :: cs) := by
      have hwords : (Attribute.volume percent).text = "(vol " ++ toString percent ++ ")" := rfl
      rw [hwords, String.toList_append, String.toList_append, List.append_assoc, List.append_assoc]
      rfl
    have hquant : strip? "(quant " ("(vol ".toList ++
        ((toString percent).toList ++ ')' :: ' ' :: cs)) = none := rfl
    rw [afterSetting?, htext, strip?_append, hquant]
    exact hvalue percent

/-- Settings are dropped, each with the space after it. -/
theorem dropSettings_attributes (attributes : List Attribute) (cs : List Char) :
    dropSettings (attributes.flatMap (fun a => a.text.toList ++ [' ']) ++ cs) =
      dropSettings cs := by
  induction attributes with
  | nil => rfl
  | cons a rest ih =>
    have hfirst := afterSetting?_text a (rest.flatMap (fun a => a.text.toList ++ [' ']) ++ cs)
    have htext : (a :: rest).flatMap (fun a => a.text.toList ++ [' ']) ++ cs =
        a.text.toList ++ ' ' :: (rest.flatMap (fun a => a.text.toList ++ [' ']) ++ cs) := by
      simp
    rw [htext, ← ih]
    cases hall : a.text.toList ++ ' ' :: (rest.flatMap (fun a => a.text.toList ++ [' ']) ++ cs) with
    | nil => simp at hall
    | cons c ds =>
      rw [hall] at hfirst
      rw [dropSettings, hfirst]

/-- Only a comment is read as one. -/
theorem isComment_text {l : Line} (h : l.Legible) (hcomment : isComment l.text.toList = true) :
    l.bare? = none := by
  obtain ⟨cs, hstrip, hnumber⟩ := (Option.any_eq_true _ _).mp hcomment
  obtain ⟨n, hn, _⟩ := (Option.any_eq_true _ _).mp hnumber
  have htext := strip?_eq_some hstrip
  have hread := Line.read?_text h
  rw [Line.read?, htext] at hread
  change ((strip? " SLICE " (" SLICE ".toList ++ cs)).bind readInt?).map Line.comment = some l
    at hread
  rw [strip?_append, Option.bind_some, hn, Option.map_some] at hread
  cases hread
  rfl

/-- Global settings stay as they are. -/
theorem dropSettings_global {setting : GlobalSetting}
    (h : ∀ text, setting = .tempo text → Tempo.IsText text) (cs : List Char) :
    dropSettings (setting.text.toList ++ cs) = setting.text.toList ++ dropSettings cs := by
  have hrest (rest : List Char) (hnone : ∀ cs, afterSetting? ('(' :: (rest ++ cs)) = none)
      (hrest : '(' ∉ rest) : dropSettings ('(' :: rest ++ cs) = '(' :: rest ++ dropSettings cs := by
    rw [List.cons_append, dropSettings_cons (hnone cs), dropSettings_append hrest, List.cons_append]
  cases setting with
  | key k =>
    have htext : (GlobalSetting.key k).text.toList =
        '(' :: ("key-signature! ".toList ++ (k.token.toList ++ ")".toList)) := by
      rw [toList_text_key]
      rfl
    rw [htext]
    refine hrest _ (fun _ => rfl) (fun hmem => ?_)
    rcases List.mem_append.mp hmem with hmem | hmem
    · exact absurd hmem (by decide)
    · rcases List.mem_append.mp hmem with hmem | hmem
      · exact absurd (isKeyChar_of_mem_token k hmem) (by decide)
      · exact absurd hmem (by decide)
  | tempo t =>
    have htext : (GlobalSetting.tempo t).text.toList =
        '(' :: ("tempo! ".toList ++ (t.toList ++ ")".toList)) := by
      rw [toList_text_tempo]
      rfl
    rw [htext]
    refine hrest _ (fun _ => rfl) (fun hmem => ?_)
    rcases List.mem_append.mp hmem with hmem | hmem
    · exact absurd hmem (by decide)
    · rcases List.mem_append.mp hmem with hmem | hmem
      · exact absurd (h t rfl '(' hmem) (by decide)
      · exact absurd hmem (by decide)

/-- A line of global settings stays as it is. -/
theorem dropSettings_globals {settings : List GlobalSetting} (h : IsGlobals settings)
    (hprinted : (Line.globals settings).Printed) :
    dropSettings (Line.globals settings).text.toList = (Line.globals settings).text.toList := by
  have hone {setting : GlobalSetting} (hmem : setting ∈ settings) (cs : List Char) :
      dropSettings (setting.text.toList ++ cs) = setting.text.toList ++ dropSettings cs := by
    refine dropSettings_global (fun text htext => ?_) cs
    exact hprinted text (htext ▸ hmem)
  have hblank : '(' ∉ [' '] := by decide
  rcases h with ⟨k, rfl⟩ | ⟨t, rfl⟩ | ⟨k, t, rfl⟩
  · have htext : (Line.globals [.key k]).text.toList = (GlobalSetting.key k).text.toList ++ [] := by
      rw [Line.toList_text_globals_singleton, List.append_nil]
    rw [htext, hone (by simp), dropSettings]
  · have htext : (Line.globals [.tempo t]).text.toList =
        (GlobalSetting.tempo t).text.toList ++ [] := by
      rw [Line.toList_text_globals_singleton, List.append_nil]
    rw [htext, hone (by simp), dropSettings]
  · have htext : (Line.globals [.key k, .tempo t]).text.toList =
        (GlobalSetting.key k).text.toList ++
          ([' '] ++ ((GlobalSetting.tempo t).text.toList ++ [])) := by
      rw [Line.toList_text_globals_pair, List.append_nil, List.singleton_append]
    rw [htext, hone (by simp), dropSettings_append hblank, hone (by simp), dropSettings]

/-- The settings of a chord stand before its word, and what comes before them does not depend on
them. -/
theorem ChordLine.exists_lead (c : ChordLine) : ∃ lead,
    c.text.toList =
        lead ++ (c.attributes.flatMap (fun a => a.text.toList ++ [' ']) ++ c.chordWord) ∧
      ({ c with attributes := [] } : ChordLine).text.toList = lead ++ c.chordWord := by
  let before := ((c.jump.map (fun n => s!"@slice-{n}")).toList ++ (c.gap.map restText).toList).map
    String.toList
  have hchord : ("/".intercalate (c.elements.map Element.text)).toList = c.chordWord := by
    rw [String.toList_intercalate, List.map_map]
    rfl
  have htext (attributes : List Attribute) :
      ({ c with attributes } : ChordLine).text.toList =
        '\t' :: [' '].intercalate (before ++ attributes.map (fun a => a.text.toList) ++
          [c.chordWord]) := by
    rw [text, words, String.toList_append, String.toList_intercalate, List.map_append,
      List.map_append, List.map_map]
    simp only [List.map_cons, List.map_nil, hchord]
    rfl
  refine ⟨'\t' :: before.flatMap (fun item => item ++ [' ']), ?_, ?_⟩
  · have hattributes : (c.attributes.map (fun a => a.text.toList)).flatMap (· ++ [' ']) =
        c.attributes.flatMap (fun a => a.text.toList ++ [' ']) := List.flatMap_map _ _ _
    rw [show c = { c with attributes := c.attributes } from rfl, htext, intercalate_concat,
      List.flatMap_append, hattributes, List.cons_append, List.append_assoc]
  · rw [htext, intercalate_concat, List.map_nil, List.append_nil]
    rfl

/-- The settings of a chord are dropped. -/
theorem dropSettings_chord {c : ChordLine} (h : c.Legible) :
    dropSettings c.text.toList = ({ c with attributes := [] } : ChordLine).text.toList := by
  obtain ⟨lead, htext, hbare⟩ := c.exists_lead
  have hlegible : ({ c with attributes := [] } : ChordLine).Legible := ⟨h.gap, h.elements, h.first⟩
  have hparen : '(' ∉ lead ++ c.chordWord := by
    rw [← hbare, ChordLine.toList_text, List.mem_cons]
    rintro (hc | hc)
    · cases hc
    · rcases mem_intercalate_singleton hc with hc | ⟨word, hword, hc⟩
      · cases hc
      · rcases ChordLine.isWordChar_of_mem hlegible hword with hchars | ⟨a, ha, _⟩
        · exact absurd (hchars _ hc) (by decide)
        · cases ha
  rw [List.mem_append, not_or] at hparen
  rw [htext, hbare, dropSettings_append hparen.1, dropSettings_attributes,
    dropSettings_eq_self hparen.2]

/-- What is left of a line's text is the text of the bare line. -/
theorem bareLine?_text {l : Line} (h : l.Legible) (hprinted : l.Printed) :
    bareLine? l.text.toList = l.bare?.map (fun l => l.text.toList) := by
  unfold bareLine?
  by_cases hcomment : isComment l.text.toList = true
  · rw [if_pos hcomment, isComment_text h hcomment]
    rfl
  · rw [if_neg hcomment]
    have hplain (hsimple : l.isSimple = true) : dropSettings l.text.toList = l.text.toList := by
      refine dropSettings_eq_self (fun hmem => ?_)
      exact absurd (Line.isLineChar_of_mem h hsimple hmem) (by decide)
    cases l with
    | comment slice =>
      refine absurd ?_ hcomment
      rw [isComment, Line.toList_text_comment, strip?_append]
      exact isNumeral_toString slice
    | globals settings => rw [dropSettings_globals h hprinted]; rfl
    | chord line => exact congrArg some (dropSettings_chord h)
    | blank => rw [hplain rfl]; rfl
    | declare id => rw [hplain rfl]; rfl
    | select id => rw [hplain rfl]; rfl
    | marker slice => rw [hplain rfl]; rfl
    | rest length => rw [hplain rfl]; rfl

/-- What is left of the text of a score is the text of the bare score, up to empty lines at both
ends. -/
theorem Plan.bareText_textOf (p : Plan) {s : Score} (h : s.Paged) :
    bareText (p.textOf s) = trimmed s.bare.texts := by
  have hempty : bareLine? [] = some [] := by
    rw [bareLine?, dropSettings]
    rfl
  have hlines : s.texts.filterMap bareLine? = s.bare.texts := by
    rw [Score.texts, Score.texts, List.filterMap_map, Score.bare, List.map_filterMap]
    refine List.filterMap_congr (fun l hl => ?_)
    have hmem := Array.mem_toList_iff.mp hl
    exact bareLine?_text (h.legible l hmem) (h.printed l hmem)
  rw [bareText, trimmed_filterMap hempty, p.trimmed_bodyOf_textOf h, ← trimmed_filterMap hempty,
    hlines]

/-! ### Settings that ask for more -/

namespace Recording

/-- **What settings ask for is added, and nothing else changes.** A recording that is read from a
document has a transcript under any settings. Under two settings with the same shortest rest the
warnings, the statistics and the slices with their written lengths are the same, and so are the
texts without the statistics, the comments of slices, the settings of parts and the empty lines at
both ends. -/
theorem transcripts_alike {document : Json} {r : Recording}
    (hdocument : ofDocument document = .ok r) {settings settings' : Settings}
    (hminRest : settings.minRest = settings'.minRest) :
    ∃ t t', r.transcribe settings = .ok t ∧ r.transcribe settings' = .ok t' ∧
      t.warnings = t'.warnings ∧ t.statistics = t'.statistics ∧ t.slices = t'.slices ∧
      bareText t.text = bareText t'.text := by
  have hbuilt := ofDocument_built hdocument
  obtain ⟨slices, s, R, hslices, _, hscore, _, hpaged⟩ := exists_paged hbuilt settings
  obtain ⟨slices', s', R', hslices', _, hscore', _, hpaged'⟩ := exists_paged hbuilt settings'
  cases hslices.symm.trans hslices'
  have hformat : settings.format = settings'.format := by
    cases settings.format
    cases settings'.format
    rfl
  have hplans : (Plan.of r settings).bare = (Plan.of r settings').bare := by
    simp only [Plan.of, Plan.bare, hformat, hminRest]
  have htables : (Plan.of r settings).tables = (Plan.of r settings').tables :=
    show (Plan.of r settings).bare.tables = (Plan.of r settings').bare.tables by rw [hplans]
  have hbare := Plan.bare_eq_of_score hplans hscore hscore'
  have hnotices : s.notices = s'.notices :=
    show s.bare.notices = s'.bare.notices by rw [hbare]
  have hstatistics : s.statistics = s'.statistics :=
    show s.bare.statistics = s'.bare.statistics by rw [hbare]
  refine ⟨_, _, bind_eq_ok.mpr ⟨slices, hslices, bind_eq_ok.mpr ⟨s, hscore, rfl⟩⟩,
    bind_eq_ok.mpr ⟨slices, hslices, bind_eq_ok.mpr ⟨s', hscore', rfl⟩⟩, ?_, hstatistics, ?_, ?_⟩
  · simp only [Transcript.warnings, hnotices]
  · simp only [htables]
  · simp only [Plan.bareText_textOf _ hpaged, Plan.bareText_textOf _ hpaged', hbare]

/-- The text of two notes with and without all that settings ask for. -/
theorem transcripts_alike_two_notes :
    ∃ r t t', ofDocument
        (.ofSequence [("0", [(0, 60, 240), (480, 64, 960)])] [(480, 90)]) = .ok r ∧
      r.transcribe { attributes := true, statistics := true } = .ok t ∧
      r.transcribe { sliceComments := false } = .ok t' ∧ t.text ≠ t'.text ∧
      t.warnings = t'.warnings ∧ t.statistics = t'.statistics ∧ t.slices = t'.slices ∧
      bareText t.text = bareText t'.text := by
  obtain ⟨r, hdocument, htexts⟩ := exists_eq_ok
    (show (ofDocument (.ofSequence [("0", [(0, 60, 240), (480, 64, 960)])]
      [(480, 90)])).toOption.any (fun r =>
        ((r.transcribe { attributes := true, statistics := true }).toOption.map Transcript.text) ≠
        ((r.transcribe { sliceComments := false }).toOption.map Transcript.text)) = true by
      decide +kernel)
  obtain ⟨t, t', htranscribe, htranscribe', halike⟩ := transcripts_alike hdocument
    (show ({ attributes := true, statistics := true } : Settings).minRest =
      ({ sliceComments := false } : Settings).minRest from rfl)
  refine ⟨r, t, t', hdocument, htranscribe, htranscribe', ?_, halike⟩
  simpa [htranscribe, htranscribe', Except.toOption] using htexts

end Recording

end Transcription
