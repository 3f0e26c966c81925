import Transcription.Proofs.Recording.Kept
import Transcription.Proofs.Recording.Tracks
import Transcription.Proofs.Score.Checked
import Transcription.Proofs.Score.Keys
import Transcription.Proofs.Slice.Lookups
import Transcription.Proofs.Timing.Run

/-!
# Every recording is transcribed

No check of the cutting and of the writing fails for a recording that is read from a document, or
recorded from tracks in their ranges. What is no key signature is warned of, and nothing else is
warned of as such. Where integers may be written only with so many digits, it is enough that the
latest tick has no more of them, which holds of every document.
-/

namespace Transcription

namespace Recording

variable {r : Recording}

/-- The texts of the keys of a recording are those of its slices. -/
theorem filterMap_keyText? (hrep : r.WellFormed) {slices : List Slice} (hok : r.slices = .ok slices)
    (hhas : r.HasSlices slices) : slices.filterMap Slice.keyText? = r.keyTexts := by
  rw [keyTexts, ← hhas.map_beginTick, List.filterMap_map]
  refine List.filterMap_congr (fun s hs => ?_)
  rw [Slice.keyText?, globals_of_mem hrep hok hs]
  rfl

/-- Cutting a recording warns of no key. -/
theorem filter_cutWarnings (r : Recording) :
    r.cutWarnings.filter (fun w => w.kind = .invalidKeySignature) = [] := by
  refine List.filter_eq_nil_iff.mpr (fun w hw => ?_)
  simp [kind_of_mem_cutWarnings hw]

/-! ### The latest tick -/

/-- The latest tick of a recording: the end of its last slice, or what is recorded after it. -/
def latestTick (r : Recording) : Int := r.ticks.foldl max r.sliceEnd

/-- The last slice ends by the latest tick, and everything is recorded by then. -/
theorem le_latestTick (r : Recording) :
    r.sliceEnd ≤ r.latestTick ∧ ∀ tick ∈ r.ticks, tick ≤ r.latestTick :=
  foldl_max_le_iff.mp (Int.le_refl _)

/-- The latest tick is after the start. -/
theorem latestTick_pos (r : Recording) : 0 < r.latestTick := by
  obtain ⟨last, hlast, hend, -⟩ := r.exists_last
  have hwithin := r.contiguous_bounds.first_le (List.mem_of_getLast? hlast)
  have hle := r.le_latestTick.1
  omega

/-- Nothing in the slices of a recording is beyond its latest tick. -/
theorem HasSlices.within (hrep : r.WellFormed) {slices : List Slice} (h : r.HasSlices slices)
    {s : Slice} (hs : s ∈ slices) : s.Within r.latestTick := by
  obtain ⟨i, -, hslice⟩ := h.exists_place hs
  obtain ⟨hsliceEnd, hticks⟩ := r.le_latestTick
  have hle : s.endTick ≤ r.sliceEnd := snd_le_sliceEnd hslice.bounds_mem
  have hlt : s.beginTick < s.endTick := (r.contiguous_bounds.first_le hslice.bounds_mem).2
  refine ⟨by omega, by omega, ?_⟩
  rintro lane ⟨tick, e⟩ he
  obtain ⟨hchange, hstruck, heither⟩ := change_or_struck hrep (hslice.mem_timeline.mp he).2
  have hlookup : tick ∈ r.lookupTicks lane.val := by
    rcases heither with hplayed | hnotes
    · exact List.mem_append_right _ (hchange.mp hplayed)
    · exact List.mem_append_left _ (hstruck.mp hnotes)
  exact ⟨lookup_nonneg hrep hlookup, hticks tick (mem_ticks_of_lookup hlookup)⟩

/-- The latest tick of a document has few enough digits to be written. -/
theorem fitsIn_latestTick {document : Json} (hok : ofDocument document = .ok r) :
    Text.FitsIn Text.maxDigits r.latestTick := by
  obtain ⟨hend, hticks⟩ := ticks_le_of_ofDocument hok
  have hmax : maxTick = 0x7fff_ffff_ffff_ffff := rfl
  have hlast : r.lastTick ≤ 2 * maxTick + 1 := by
    unfold lastTick
    cases hdeclared : r.endTick with
    | none =>
      have := foldl_max_le_iff.mpr ⟨show 0 ≤ 2 * maxTick by decide, hticks⟩
      rw [Option.getD_none]
      omega
    | some n =>
      have := hend n hdeclared
      rw [Option.getD_some]
      omega
  have hboundary : r.boundaries.getLast?.getD 0 ≤ 2 * maxTick := by
    cases hlast : r.boundaries.getLast? with
    | none => decide
    | some tick =>
      rcases List.mem_cons.mp (List.mem_of_getLast? hlast) with rfl | hmem
      · decide
      · refine hticks tick (List.mem_append_right _ ?_)
        exact (List.filter_sublist.map _).subset (List.mem_of_mem_filter hmem)
  have hle : r.latestTick ≤ 2 * maxTick + 1 := by
    refine foldl_max_le_iff.mpr ⟨?_, fun tick htick => ?_⟩
    · unfold sliceEnd
      omega
    · have := hticks tick htick
      omega
  have hdigits : (2 * maxTick + 1).natAbs < Nat.pow 10 Text.maxDigits := by decide +kernel
  have hpos := r.latestTick_pos
  exact Nat.lt_of_le_of_lt (by omega) hdigits

/-! ### Transcripts -/

/-- What a recording is warned of when it is cut may be written as its latest tick may be. -/
theorem mapM_checkMiss (hrep : r.WellFormed) {limit : Option Nat}
    (hlimit : Checked.Allows limit r.latestTick) :
    r.cutWarnings.mapM (Checked.checkMiss limit) = .ok r.cutWarnings := by
  refine (mapM_eq_ok (g := id) (fun w hw => ?_)).trans (congrArg _ (List.map_id _))
  obtain ⟨tick, hmissed, rfl⟩ := List.mem_map.mp hw
  obtain ⟨channel, -, hlookup⟩ := List.mem_flatMap.mp (List.mem_of_mem_filter hmissed)
  have hallowed := hlimit tick (lookup_nonneg hrep hlookup)
    (r.le_latestTick.2 tick (mem_ticks_of_lookup hlookup))
  exact bind_eq_ok.mpr ⟨(), hallowed, Checked.checkKind_eq _⟩

/-- A recording whose slices are written is transcribed, with every step checked as well, as long as
its latest tick may be written. -/
theorem exists_transcript (hrep : r.WellFormed) {settings : Settings} {slices : List Slice}
    {s : Score} (hslices : r.slices = .ok slices) (hhas : r.HasSlices slices)
    (hscore : (Plan.of r settings).score slices = .ok s) :
    ∃ t, r.transcribe settings = .ok t ∧ t.warnings = r.cutWarnings ++ s.warnings ∧
      ∀ limit, Checked.Allows limit r.latestTick → Checked.transcribe limit r settings = .ok t := by
  have hproper := (Plan.proper_of hrep settings).tables
  have hformat : Format.ofName settings.format.name = .ok settings.format := by
    cases settings.format
    rfl
  refine ⟨_, bind_eq_ok.mpr ⟨slices, hslices, bind_eq_ok.mpr ⟨s, hscore, rfl⟩⟩, rfl,
    fun limit hlimit => ?_⟩
  have hchecked := (Checked.score_eq hproper hlimit (fun _ => hhas.within hrep)).trans hscore
  refine bind_eq_ok.mpr ⟨_, cut_eq hslices, bind_eq_ok.mpr ⟨_, mapM_checkMiss hrep hlimit, ?_⟩⟩
  refine bind_eq_ok.mpr ⟨(), if_pos hrep.resolution, bind_eq_ok.mpr ⟨_, hformat, ?_⟩⟩
  exact bind_eq_ok.mpr ⟨s, hchecked, rfl⟩

/-- **Every recording is transcribed.** A recording that is read from a document, or recorded from
tracks in their ranges, has a transcript under any settings. With every step checked it has the same
one, so no check fails. This is so without a limit on the digits with which an integer may be
written, and under any limit to which the latest tick keeps; that of a document keeps to the limit
on integers in text. The loops over the lengths of notes and of rests end for every duration. What
is no key signature is warned of, once for each text, and no other warning is of this kind. -/
theorem transcribe_total
    (hsource : (∃ document, ofDocument document = .ok r) ∨
      ∃ f : Midi.File, f.InRange ∧ f.record = .ok r) (settings : Settings) :
    ∃ t, r.transcribe settings = .ok t ∧ Checked.transcribe none r settings = .ok t ∧
      (∀ digits, Text.FitsIn digits r.latestTick →
        Checked.transcribe (some digits) r settings = .ok t) ∧
      ((∃ document, ofDocument document = .ok r) → Text.FitsIn Text.maxDigits r.latestTick) ∧
      (∀ duration, LengthTable.Splits 0 (Plan.of r settings).tables.notes.keys.reverse duration
        (((Plan.of r settings).tables.noteSummands duration).map Prod.fst)) ∧
      (∀ duration, LengthTable.Splits (Plan.of r settings).tables.minRest
        (Plan.of r settings).tables.rests.keys.reverse duration
        (((Plan.of r settings).tables.restSummands duration).map Prod.fst)) ∧
      t.warnings.filter (fun w => w.kind = .invalidKeySignature) =
        KeySignature.cMajor.warnings r.keyTexts := by
  have hbuilt : r.Built := by
    rcases hsource with ⟨document, hdocument⟩ | ⟨f, hf, hrecord⟩
    · exact ofDocument_built hdocument
    · exact Midi.File.record_built hf hrecord
  have hrep := hbuilt.wellFormed
  have hp := Plan.proper_of hrep settings
  obtain ⟨slices, hslices, hhas⟩ := exists_slices hrep
  obtain ⟨s, _, hwrite, _⟩ := Plan.exists_agrees hp hhas (List.append_nil _).symm
  have hscore := Plan.score_eq_ok.mpr hwrite
  obtain ⟨t, htranscribe, hwarnings, hchecked⟩ := exists_transcript hrep hslices hhas hscore
  refine ⟨t, htranscribe, hchecked none (Checked.allows_none _),
    fun digits hdigits => hchecked (some digits) (Checked.allows_of_fitsIn hdigits),
    fun ⟨_, hdocument⟩ => fitsIn_latestTick hdocument, fun duration => ?_, fun duration => ?_, ?_⟩
  · exact LengthTable.splits_split (fun e he => hp.tables.notes_ofLadder.pos he) 0 duration
  · exact LengthTable.splits_split (fun e he => hp.tables.rests_ofLadder.pos he) _ duration
  · rw [hwarnings, List.filter_append, filter_cutWarnings, List.nil_append,
      ← filterMap_keyText? hrep hslices hhas]
    exact Plan.keyWarnings_of_score hscore

/-- The document of a sequence with keys by their ticks. At its resolution many lengths have no
tick, and its only note is struck past its end. -/
def documentOfKeys (keys : List (Int × String)) : Json :=
  .obj
    [("resolution", .int 1), ("end_tick", .int 2),
      ("channels", .obj [("3", .obj [("notes", .arr
        [.obj [("tick", .int 5), ("note", .int 60), ("length", .int 1)]])])]),
      ("globals", .arr (keys.map (fun e => .obj [("tick", .int e.1), ("key", .str e.2)])))]

/-- Of two texts that are no keys each is warned of, the second one while a key is in force. -/
theorem transcribe_total_refused_keys :
    ∃ r t, ofDocument (documentOfKeys [(0, "8/0"), (1, "2/0"), (2, "h")]) = .ok r ∧
      r.transcribe {} = .ok t ∧ Checked.transcribe (some Text.maxDigits) r {} = .ok t ∧
      t.warnings.filter (fun w => w.kind = .invalidKeySignature) =
        [{ kind := .invalidKeySignature
           message := "invalid key signature '8/0'; keeping 0/0"
           tick := some 0 },
          { kind := .invalidKeySignature
            message := "invalid key signature 'h'; keeping 2/0"
            tick := some 2 }] := by
  obtain ⟨r, hdocument, hkeys⟩ := exists_eq_ok
    (show (ofDocument (documentOfKeys [(0, "8/0"), (1, "2/0"), (2, "h")])).toOption.any
      (fun r => r.keyTexts = [(0, "8/0"), (1, "2/0"), (2, "h")]) = true by decide +kernel)
  obtain ⟨t, htranscribe, -, hchecked, hfits, -, -, hwarnings⟩ :=
    transcribe_total (.inl ⟨_, hdocument⟩) {}
  refine ⟨r, t, hdocument, htranscribe, hchecked _ (hfits ⟨_, hdocument⟩), hwarnings.trans ?_⟩
  rw [of_decide_eq_true hkeys]
  decide +kernel

/-- No rest is as long as these settings ask for, so the gap before the second note is warned of. Its
ticks have four digits. -/
example : (ofDocument (.ofSequence [("0", [(0, 60, 480), (2900, 62, 480)])] [])).toOption.any
    (fun r => (Checked.transcribe (some 4) r { minRest := some 2881 }).isOk &&
      Checked.transcribe (some 3) r { minRest := some 2881 } matches .error .tooLongToWrite) =
        true := by
  decide +kernel

end Recording

end Transcription
