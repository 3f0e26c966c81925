import Transcription.Proofs.Recording.Kept
import Transcription.Proofs.Slice.Excerpt
import Transcription.Proofs.Slice.Lookups

/-!
# When placed notes are released

A note that lies in its slice is released after it starts, where its pitch is released or struck
next in the whole recording. A note past the declared end of a sequence is placed in the last slice,
which keeps nothing that follows the note; its release is then the end of that slice, which the note
has already passed. The look-up of such a note is warned of.
-/

namespace Transcription

namespace Recording

variable {r : Recording} {s : Slice} {channel pitch tick : Int}

/-- A pitch that starts at a tick is released, or struck again, first at another one. -/
def FirstOff (r : Recording) (channel pitch tick off : Int) : Prop :=
  off ∈ (r.pressesOf channel pitch).keys ∧ tick < off ∧
    ∀ tick' ∈ (r.pressesOf channel pitch).keys, tick < tick' → off ≤ tick'

instance (r : Recording) (channel pitch tick off : Int) :
    Decidable (r.FirstOff channel pitch tick off) :=
  inferInstanceAs (Decidable (_ ∧ _ ∧ ∀ _ ∈ _, _))

/-- The first entry of an ascending list that passes a test has no entry before it that does. -/
theorem le_of_find?_eq_some {l : List (Int × Bool)} (hsorted : l.Pairwise (fun a b => a.1 < b.1))
    {p : Int × Bool → Bool} {e e' : Int × Bool} (hfound : l.find? p = some e) (hmem : e' ∈ l)
    (he' : p e' = true) : e.1 ≤ e'.1 := by
  obtain ⟨-, before, after, rfl, hbefore⟩ := List.find?_eq_some_iff_append.mp hfound
  rcases List.mem_append.mp hmem with hmem | hmem
  · have hnot := hbefore e' hmem
    rw [he'] at hnot
    cases hnot
  · rcases List.mem_cons.mp hmem with rfl | hmem
    · exact Int.le_refl _
    · have := (List.pairwise_cons.mp (List.pairwise_append.mp hsorted).2.1).1 e' hmem
      omega

/-- A slice knows of a note inside it when it is released first. -/
theorem Answers.firstOff (h : r.Answers s) (hinside : s.contains tick = true)
    (hstruck : pitch ∈ (r.struckAt channel tick).keys)
    (hoff : ∃ off ∈ (r.pressesOf channel pitch).keys, tick < off) :
    ∃ off, s.offTick? channel pitch tick = some off ∧ r.FirstOff channel pitch tick off := by
  rw [h.off channel pitch tick hstruck hinside]
  cases hmin : ((r.pressesOf channel pitch).keys.filter (fun t => tick < t)).min? with
  | none =>
    obtain ⟨off, hoff, hlt⟩ := hoff
    have hnil := List.min?_eq_none_iff.mp hmin
    exact absurd (decide_eq_true hlt) (List.filter_eq_nil_iff.mp hnil off hoff)
  | some off =>
    obtain ⟨hmem, hle⟩ := List.min?_eq_some_iff.mp hmin
    obtain ⟨hkey, hlt⟩ := List.mem_filter.mp hmem
    refine ⟨off, rfl, hkey, of_decide_eq_true hlt, fun tick' htick' hlt' => ?_⟩
    exact hle tick' (List.mem_filter.mpr ⟨htick', decide_eq_true hlt'⟩)

/-- A slice knows of a note past its end of no release. -/
theorem Answers.offTick?_of_past (h : r.Answers s) (hmatch : r.PressesMatch)
    (hpast : s.endTick ≤ tick) (hstruck : pitch ∈ (r.struckAt channel tick).keys) :
    s.offTick? channel pitch tick = none := by
  have hpressed : (tick, true) ∈ (r.pressesOf channel pitch).entries :=
    Table.mem_entries_iff.mpr ((hmatch channel pitch tick).mpr hstruck)
  rw [Slice.offTick?_eq, Table.firstAfter?_eq_find?, Option.map_eq_none_iff, List.find?_eq_none]
  intro e he hlt
  have hlt : tick < e.1 := of_decide_eq_true hlt
  -- what is kept from the end on is the first entry there, and the note is no later one
  obtain ⟨-, hfound⟩ := (h.carried channel pitch e).mp ⟨he, by omega⟩
  have := le_of_find?_eq_some (r.pressesOf channel pitch).ascending hfound hpressed
    (decide_eq_true hpast)
  omega

/-- A channel has strikes where a note is struck. -/
theorem mem_keys_of_struck (hstruck : pitch ∈ (r.struckAt channel tick).keys) :
    tick ∈ (r.strikesOn channel).keys := by
  cases hnotes : (r.strikesOn channel).get? tick with
  | none =>
    rw [struckAt, hnotes] at hstruck
    cases hstruck
  | some notes => exact Table.mem_keys_iff.mpr ⟨notes, hnotes⟩

/-- A strike past the last slice lies past a declared end. -/
theorem HasSlices.exists_endTick {slices : List Slice} (h : r.HasSlices slices)
    (hlast : slices.getLast? = some s) (hpast : s.endTick ≤ tick)
    (hstruck : pitch ∈ (r.struckAt channel tick).keys) :
    ∃ declared, r.endTick = some declared ∧ declared ≤ tick := by
  have hend : r.lastTick ≤ s.endTick := by
    rw [h.endTick_eq hlast]
    exact le_max_left _ _
  cases hdeclared : r.endTick with
  | none =>
    have := lt_lastTick hdeclared (mem_ticks_of_strikesOn (mem_keys_of_struck hstruck))
    omega
  | some declared =>
    refine ⟨declared, rfl, ?_⟩
    rw [lastTick, hdeclared, Option.getD_some] at hend
    omega

/-- A recording that is read from a document presses its pitches where it strikes them. -/
theorem ofDocument_pressesMatch {document : Json} (hok : ofDocument document = .ok r) :
    r.PressesMatch := by
  obtain ⟨-, added, resolution, endTick, -, -, -, -, rfl⟩ := exists_gives_of_ofDocument hok
  have hall : ∀ a ∈ added, a.Allowed (fun _ => True) := fun a _ => by cases a <;> trivial
  exact (made_addAll (.new resolution endTick) hall).pressesMatch

/-- A note that is struck in a recording of a document is released later. -/
theorem ofDocument_exists_release {document : Json} (hok : ofDocument document = .ok r)
    (hstruck : pitch ∈ (r.struckAt channel tick).keys) :
    ∃ off ∈ (r.pressesOf channel pitch).keys, tick < off := by
  obtain ⟨members, added, resolution, endTick, -, hgives, -, -, rfl⟩ :=
    exists_gives_of_ofDocument hok
  exact exists_release hgives.inRange hstruck

/-- **Placed notes are released after they start, unless they lie past a declared end.** A recording
that is read from a document is cut into slices. Every note that lies before the end of its slice
has the first release, or new strike, of its pitch that the whole recording has after it. A note
that does not is one past a declared end: it is in the last slice with a warning that its tick was
missed, and the end of this slice is its release. -/
theorem released_in_slices {document : Json} (hdocument : ofDocument document = .ok r) :
    ∃ slices, r.slices = .ok slices ∧ r.cut = .ok { slices, warnings := r.cutWarnings } ∧
      ∀ s ∈ slices, ∀ lane : Channel, ∀ e ∈ s.timelines.get lane, ∀ n ∈ e.2.struck.entries,
        (e.1 < s.endTick → r.FirstOff lane.val n.1 e.1 n.2.offTick) ∧
        (s.endTick ≤ e.1 → n.2.offTick = s.endTick ∧ slices.getLast? = some s ∧
          Slice.missWarning e.1 ∈ r.cutWarnings ∧
          ∃ declared, r.endTick = some declared ∧ declared ≤ e.1) := by
  have hrep := ofDocument_wellFormed hdocument
  have hmatch := ofDocument_pressesMatch hdocument
  obtain ⟨slices, hslices, hhas⟩ := exists_slices hrep
  refine ⟨slices, hslices, cut_eq hslices, fun s hs lane e he n hn => ?_⟩
  have hanswers : r.Answers s := by
    obtain ⟨b, hb, belongs, rfl⟩ := exists_filled_of_range (fun _ => hrep.channels) hslices hs
    exact answers_filled hmatch belongs (r.contiguous_bounds.first_le hb).2
  obtain ⟨i, _, hslice⟩ := hhas.exists_place hs
  have hget := Table.mem_entries_iff.mp hn
  rw [get?_struck (hslice.mem_timeline.mp he).2] at hget
  obtain ⟨velocity, hvelocity, hnote⟩ := Option.map_eq_some_iff.mp hget
  have hstruck : n.1 ∈ (r.struckAt lane.val e.1).keys :=
    Table.mem_keys_iff.mpr ⟨velocity, hvelocity⟩
  have hoff : n.2.offTick = (s.offTick? lane.val n.1 e.1).getD s.endTick := by
    rw [← hnote]
    rfl
  have hstrike : ⟨lane.val, e.1, n.1, n.2.velocity⟩ ∈ s.allStrikes :=
    List.mem_flatMap.mpr ⟨lane, List.mem_finRange lane,
      List.mem_flatMap.mpr ⟨e, he, List.mem_map.mpr ⟨n, hn, rfl⟩⟩⟩
  have hplaced : s.contains e.1 = true ∨ slices.getLast? = some s ∧ s.endTick ≤ e.1 :=
    hhas.placed hrep hs hstrike
  constructor
  · intro hbefore
    have hinside : s.contains e.1 = true := hplaced.resolve_right (fun hpast => by omega)
    obtain ⟨off, hknown, hfirst⟩ :=
      hanswers.firstOff hinside hstruck (ofDocument_exists_release hdocument hstruck)
    rwa [hoff, hknown]
  · intro hpast
    have houtside : ¬ s.contains e.1 = true := fun hinside => by
      have := of_decide_eq_true hinside
      omega
    obtain ⟨hlast, -⟩ := hplaced.resolve_left houtside
    have hlookup : e.1 ∈ r.lookupTicks lane.val :=
      List.mem_append_left _ (mem_keys_of_struck hstruck)
    have hend : r.sliceEnd ≤ e.1 := hhas.endTick_eq hlast ▸ hpast
    refine ⟨?_, hlast, missWarning_mem_cutWarnings hrep hlookup hend,
      hhas.exists_endTick hlast hpast hstruck⟩
    rw [hoff, hanswers.offTick?_of_past hmatch hpast hstruck]
    rfl

/-- A document whose end is declared between its two notes. -/
def endingEarly : Json :=
  .obj
    [("resolution", .int 480), ("end_tick", .int 100),
      ("channels", .obj
        [("0", .obj [("notes", .arr
          [.obj [("tick", .int 0), ("note", .int 60), ("length", .int 480)],
            .obj [("tick", .int 960), ("note", .int 60), ("length", .int 480)]])])])]

/-- The first note is released after the end of its slice, and the second one has this end and is
warned of. -/
theorem released_in_slices_endingEarly :
    ∃ r slices, ofDocument endingEarly = .ok r ∧ r.slices = .ok slices ∧
      r.cut = .ok { slices, warnings := [Slice.missWarning 960] } ∧
      slices.map (fun s => (s.timelines.get 0).map (fun e => (e.1, e.2.struck.entries))) =
        [[(0, [(60, { velocity := 100, offTick := 480 })]),
          (960, [(60, { velocity := 100, offTick := 100 })])]] ∧
      ∀ s ∈ slices, ∀ lane : Channel, ∀ e ∈ s.timelines.get lane, ∀ n ∈ e.2.struck.entries,
        (e.1 < s.endTick → r.FirstOff lane.val n.1 e.1 n.2.offTick) ∧
        (s.endTick ≤ e.1 → n.2.offTick = s.endTick ∧ slices.getLast? = some s ∧
          Slice.missWarning e.1 ∈ [Slice.missWarning 960] ∧
          ∃ declared, r.endTick = some declared ∧ declared ≤ e.1) := by
  obtain ⟨r, hdocument, hr⟩ := exists_eq_ok (show (ofDocument endingEarly).toOption.any
    (fun r => r.cutWarnings = [Slice.missWarning 960] ∧ r.slices.toOption.any (fun slices =>
      slices.map (fun s => (s.timelines.get 0).map (fun e => (e.1, e.2.struck.entries))) =
        [[(0, [(60, { velocity := 100, offTick := 480 })]),
          (960, [(60, { velocity := 100, offTick := 100 })])]])) = true by decide +kernel)
  obtain ⟨slices, hslices, hcut, hall⟩ := released_in_slices hdocument
  obtain ⟨hwarnings, htimelines⟩ := of_decide_eq_true hr
  rw [hslices] at htimelines
  rw [hwarnings] at hcut hall
  exact ⟨r, slices, hdocument, hslices, hcut, of_decide_eq_true htimelines, hall⟩

/-- A note past a declared end is not released after it starts, although its pitch is. -/
theorem not_released_past_end :
    ∃ r slices, ofDocument endingEarly = .ok r ∧ r.slices = .ok slices ∧
      r.FirstOff 0 60 960 1440 ∧
      ¬ ∀ s ∈ slices, ∀ lane : Channel, ∀ e ∈ s.timelines.get lane, ∀ n ∈ e.2.struck.entries,
        e.1 < n.2.offTick := by
  obtain ⟨r, hdocument, hr⟩ := exists_eq_ok (show (ofDocument endingEarly).toOption.any
    (fun r => r.slices.toOption.any (fun slices => r.FirstOff 0 60 960 1440 ∧
      ¬ ∀ s ∈ slices, ∀ lane : Channel, ∀ e ∈ s.timelines.get lane, ∀ n ∈ e.2.struck.entries,
        e.1 < n.2.offTick)) = true by decide +kernel)
  obtain ⟨slices, hslices, hnot⟩ := exists_eq_ok hr
  obtain ⟨hfirst, hnot⟩ := of_decide_eq_true hnot
  exact ⟨r, slices, hdocument, hslices, hfirst, hnot⟩

end Recording

end Transcription
