import Transcription.Proofs.Reading.RoundTrip
import Transcription.Proofs.Score.InPlace

/-!
# Writing again

The lengths that earlier writing left in the notes of slices are never read: a note takes its length
anew before its chord is written. So slices that differ in these lengths only are written alike, and
slices that were written any number of times are written like those that never were.
-/

namespace Transcription

/-! ### Taking lengths away -/

/-- A note without the length it was written with. -/
def Note.unwritten (n : Note) : Note := { n with written := none }

/-- A timeline without the lengths its notes were written with. -/
def Timeline.unwritten (t : Timeline) : Timeline := t.mapNotes (fun _ _ => Note.unwritten)

/-- A slice without the lengths its notes were written with. -/
def Slice.unwritten (s : Slice) : Slice :=
  { s with timelines := s.timelines.map Timeline.unwritten }

namespace Timeline

/-- Marked notes are the same without their lengths. -/
theorem unwritten_markWritten (f : Note → WrittenLength) (isWritten : Int → Bool) (t : Timeline) :
    (markWritten f isWritten t).unwritten = t.unwritten := by
  induction t generalizing isWritten with
  | nil => rfl
  | cons e rest ih =>
    have hrest := ih (fun pitch => isWritten pitch || e.2.struck.contains pitch)
    unfold unwritten at hrest ⊢
    rw [markWritten, mapNotes_cons, mapNotes_cons, hrest]
    congr 2
    refine (Event.mapNotes_mapNotes (fun pitch n =>
      if isWritten pitch then n else { n with written := some (f n) }) _ e.2).trans ?_
    apply Event.mapNotes_congr
    intro n _
    split
    · rfl
    · rfl

/-- A written timeline is the same without the lengths. -/
theorem unwritten_written (t : LengthTables) (timeline : Timeline) :
    (timeline.written t).unwritten = timeline.unwritten := by
  have hall (groups l : List Group) :
      unwritten (l.flatMap (fun g => markWritten
        (t.write g.tick (Group.nextOnset? groups g.tick)) (fun _ => false) g.events)) =
      unwritten (l.flatMap Group.events) := by
    induction l with
    | nil => rfl
    | cons g rest ih =>
      have hfirst := unwritten_markWritten (t.write g.tick (Group.nextOnset? groups g.tick))
        (fun _ => false) g.events
      unfold unwritten at ih hfirst ⊢
      rw [List.flatMap_cons, List.flatMap_cons, mapNotes_append, mapNotes_append, hfirst, ih]
  have hevents := Group.flatMap_events_divide t.shortestRest timeline
  exact (hall _ _).trans (congrArg unwritten hevents)

/-- Writing a timeline keeps its ticks. -/
theorem ticks_written (t : LengthTables) (timeline : Timeline) :
    (timeline.written t).ticks = timeline.ticks := by
  have h := congrArg ticks (unwritten_written t timeline)
  rwa [unwritten, unwritten, ticks_mapNotes, ticks_mapNotes] at h

end Timeline

namespace Slice

/-- The timelines of a slice without lengths. -/
theorem get_unwritten (s : Slice) (lane : Channel) :
    s.unwritten.timelines.get lane = (s.timelines.get lane).unwritten := by
  change (s.timelines.map Timeline.unwritten)[lane.val] = _
  rw [Vector.getElem_map]
  rfl

/-- A written slice is the same without the lengths. -/
theorem unwritten_written (t : LengthTables) (s : Slice) :
    (s.written t).unwritten = s.unwritten := by
  have htimelines : (s.timelines.map (Timeline.written t)).map Timeline.unwritten =
      s.timelines.map Timeline.unwritten := by
    rw [Vector.map_map]
    congr 1
    funext timeline
    exact Timeline.unwritten_written t timeline
  unfold unwritten written
  rw [htimelines]

end Slice

/-! ### Groups without lengths -/

namespace Group

/-- A group without the lengths its notes were written with. -/
def unwritten (g : Group) : Group :=
  ⟨g.tick, g.first.mapNotes (fun _ => Note.unwritten), g.folded.unwritten⟩

/-- An event is folded into a group whatever its notes were written with. -/
theorem joins_unwritten (shortest : Int) (g : Group) (e : Int × Event) :
    joins shortest g.unwritten (e.1, e.2.mapNotes (fun _ => Note.unwritten)) =
      joins shortest g e := by
  have hchange : (e.2.mapNotes (fun _ => Note.unwritten)).change = e.2.change := rfl
  have htick : g.unwritten.tick = g.tick := rfl
  have hfirst : g.unwritten.first.struck = g.first.struck.map (fun _ => Note.unwritten) :=
    Event.struck_mapNotes ..
  simp only [joins, hchange, htick, hfirst, Event.struck_mapNotes, Table.isEmpty_map]

/-- Events after a group are divided the same way without their lengths. -/
theorem divideAfter_unwritten (shortest : Int) (g : Group) (t : Timeline) :
    divideAfter shortest g.unwritten t.unwritten = (divideAfter shortest g t).map unwritten := by
  induction t generalizing g with
  | nil => rfl
  | cons e rest ih =>
    rw [Timeline.unwritten, Timeline.mapNotes_cons, divideAfter, divideAfter, joins_unwritten]
    split
    · have hfolded : g.unwritten.folded ++ [(e.1, e.2.mapNotes (fun _ => Note.unwritten))] =
          Timeline.unwritten (g.folded ++ [e]) := by
        rw [Timeline.unwritten, Timeline.mapNotes_append]
        rfl
      rw [hfolded]
      exact ih { g with folded := g.folded ++ [e] }
    · rw [List.map_cons]
      exact congrArg (g.unwritten :: ·) (ih ⟨e.1, e.2, []⟩)

/-- A timeline is divided the same way without its lengths. -/
theorem divide_unwritten (shortest : Int) (t : Timeline) :
    divide shortest t.unwritten = (divide shortest t).map unwritten := by
  cases t with
  | nil => rfl
  | cons e rest => exact divideAfter_unwritten shortest ⟨e.1, e.2, []⟩ rest

private theorem foldl_orElse_unwritten (l : Timeline) (held : Table Int Note) :
    l.unwritten.foldl (fun held e => held.orElse e.2.struck) (held.map (fun _ => Note.unwritten)) =
      (l.foldl (fun held e => held.orElse e.2.struck) held).map (fun _ => Note.unwritten) := by
  induction l generalizing held with
  | nil => rfl
  | cons e rest ih =>
    rw [Timeline.unwritten, Timeline.mapNotes_cons, List.foldl_cons, List.foldl_cons,
      Event.struck_mapNotes, ← Table.map_orElse]
    exact ih _

/-- The notes of a group without their lengths. -/
theorem notes_unwritten (g : Group) :
    g.unwritten.notes = g.notes.map (fun _ => Note.unwritten) := by
  have hfirst : g.unwritten.first.struck = g.first.struck.map (fun _ => Note.unwritten) :=
    Event.struck_mapNotes ..
  rw [notes, hfirst]
  exact foldl_orElse_unwritten g.folded g.first.struck

/-- Groups begin where they begin without their lengths. -/
theorem nextOnset?_unwritten (groups : List Group) (tick : Int) :
    nextOnset? (groups.map unwritten) tick = nextOnset? groups tick := by
  have honsets : onsets (groups.map unwritten) = onsets groups := by
    have hnotes : (fun g : Group => !g.notes.isEmpty) ∘ unwritten = fun g => !g.notes.isEmpty := by
      funext g
      rw [Function.comp_apply, notes_unwritten, Table.isEmpty_map]
    rw [onsets, List.filter_map, hnotes, List.map_map]
    rfl
  rw [nextOnset?, honsets, nextOnset?]

/-- The notes of a group get the lengths they get without their old ones. -/
theorem tones_unwritten (p : Plan) (next : Option Int) (g : Group) :
    Score.tones p next g.unwritten = Score.tones p next g := by
  rw [Score.tones, notes_unwritten, Table.map, List.map_map]
  rfl

end Group

namespace Writing

variable {p : Plan}

/-- A group is written like the same group without its lengths. -/
theorem group_unwritten (current : Slice) (channel : Int) (lane : Channel) (groups : List Group)
    (g : Group) : group p current channel lane (groups.map Group.unwritten) g.unwritten =
      group p current channel lane groups g := by
  have hchange : g.unwritten.first.change = g.first.change := rfl
  have htick : g.unwritten.tick = g.tick := rfl
  simp only [group, hchange, htick, Group.nextOnset?_unwritten, Group.tones_unwritten]

/-- The music of a channel is written like that of the slice without its lengths. -/
theorem channelBlock_unwritten (current : Slice) (channel : Int) :
    channelBlock p current.unwritten channel = channelBlock p current channel := by
  have hgroup := InPlace.group_setTimelines p current (current.timelines.map Timeline.unwritten)
  rw [← Slice.unwritten] at hgroup
  have hempty (t : Timeline) : t.unwritten = [] ↔ t = [] := List.map_eq_nil_iff
  have hgroups (lane : Channel) (groups : List Group) :
      (groups.map Group.unwritten).forM
        (group p current channel lane (groups.map Group.unwritten)) =
      groups.forM (group p current channel lane groups) := by
    simp only [List.forM_eq_forM, List.forM_map, group_unwritten]
  simp only [channelBlock, Slice.get_unwritten, hempty, Group.divide_unwritten, hgroup, hgroups]

/-- A slice is written like the same slice without its lengths. -/
theorem slice_unwritten (current : Slice) (number : Int) :
    slice p current.unwritten number = slice p current number := by
  have hbegin : Score.beginSlice p current.unwritten number = Score.beginSlice p current number :=
    rfl
  have hglobals : Score.addGlobals current.unwritten = Score.addGlobals current := rfl
  simp only [slice, hbegin, hglobals, channelBlock_unwritten]

/-- Slices are written like the same slices without their lengths. -/
theorem slices_unwritten (slices : List Slice) :
    Writing.slices p (slices.map Slice.unwritten) = Writing.slices p slices := by
  simp only [Writing.slices, List.zipIdx_map, List.forM_eq_forM, List.forM_map, Prod.map,
    slice_unwritten, id_eq]

/-- Slices that are the same without their lengths are written the same way. -/
theorem slices_congr {slices slices' : List Slice}
    (hsame : slices.map Slice.unwritten = slices'.map Slice.unwritten) :
    Writing.slices p slices = Writing.slices p slices' := by
  rw [← slices_unwritten, hsame, slices_unwritten]

end Writing

/-! ### Writing again and again -/

namespace InPlace

variable {r : Recording} {slices : List Slice}

/-- Slices in whose timelines no tick occurs twice. -/
def Distinct (slices : List Slice) : Prop :=
  ∀ s ∈ slices, ∀ lane : Channel, (s.timelines.get lane).ticks.Nodup

/-- Slices that are the same without their lengths have the same ticks. -/
theorem Distinct.congr {slices' : List Slice} (h : Distinct slices)
    (hsame : slices.map Slice.unwritten = slices'.map Slice.unwritten) : Distinct slices' := by
  intro s' hs' lane
  have hmem : s'.unwritten ∈ slices.map Slice.unwritten := hsame ▸ List.mem_map_of_mem hs'
  obtain ⟨s, hs, heq⟩ := List.mem_map.mp hmem
  have hlane := congrArg (fun s : Slice => (s.timelines.get lane).ticks) heq
  simp only [Slice.get_unwritten, Timeline.unwritten, Timeline.ticks_mapNotes] at hlane
  rw [← hlane]
  exact h s hs lane

/-- Slices that are left written have the ticks they had. -/
theorem Distinct.written (h : Distinct slices) (t : LengthTables) :
    Distinct (slices.map (Slice.written t)) := by
  refine h.congr ?_
  rw [List.map_map]
  exact List.map_congr_left (fun s _ => (Slice.unwritten_written t s).symm)

/-- A step that gives back something else afterwards goes where it goes. -/
theorem run_bind_pure {α : Type} (m : Writing Unit) (a : α) (s : Score) :
    (m >>= fun _ => (pure a : Writing α)).run s =
      match m.run s with
      | .ok () s => .ok a s
      | .error e s => .error e s := by
  change EStateM.bind m _ s = _
  unfold EStateM.bind EStateM.run
  cases m s with
  | ok _ s => rfl
  | error e s => rfl

/-- To write slices in place is to write them, and to leave them written. -/
theorem render_eq (hdistinct : Distinct slices) (settings : Settings) :
    render r settings slices = (do
      let s ← (Plan.of r settings).score slices
      return {
        text := (Plan.of r settings).textOf s
        notices := s.notices.toList
        statistics := s.statistics
        slices := slices.map (Slice.written (Plan.of r settings).tables) }) := by
  have hrun : (InPlace.slices (Plan.of r settings) slices).run {} =
      match (Writing.slices (Plan.of r settings) slices).run {} with
      | .ok () s => .ok (slices.map (Slice.written (Plan.of r settings).tables)) s
      | .error e s => .error e s := by
    rw [slices_eq hdistinct, run_bind_pure]
  unfold render Plan.score
  simp only [hrun]
  cases (Writing.slices (Plan.of r settings) slices).run {} with
  | ok _ s => rfl
  | error e s => rfl

/-- Slices that are written without a failure are written in place, with the same text. -/
theorem render_of_score (hdistinct : Distinct slices) {settings : Settings} {s : Score}
    (hscore : (Plan.of r settings).score slices = .ok s) :
    ∃ w, render r settings slices = .ok w ∧ r.render settings slices = .ok w.text ∧
      w.text = (Plan.of r settings).textOf s ∧ w.notices = s.notices.toList ∧
      w.statistics = s.statistics ∧
      w.slices = slices.map (Slice.written (Plan.of r settings).tables) := by
  refine ⟨_, (render_eq hdistinct settings).trans (bind_eq_ok.mpr ⟨s, hscore, rfl⟩), ?_, rfl, rfl,
    rfl, rfl⟩
  exact bind_eq_ok.mpr ⟨s, hscore, rfl⟩

/-- To transcribe in place is to transcribe. -/
theorem transcribe_eq (hslices : r.slices = .ok slices) (hdistinct : Distinct slices)
    (settings : Settings) : transcribe r settings = r.transcribe settings := by
  unfold transcribe Recording.transcribe
  rw [hslices]
  change (render r settings slices >>= _) = ((Plan.of r settings).score slices >>= _)
  rw [render_eq hdistinct, bind_assoc]
  simp only [pure_bind]

end InPlace

namespace Recording

variable {r : Recording} {slices : List Slice}

/-- In the slices of a recording no tick occurs twice. -/
theorem HasSlices.distinct (h : r.HasSlices slices) : InPlace.Distinct slices := by
  intro s hs lane
  obtain ⟨i, _, hslice⟩ := h.exists_place hs
  exact (List.pairwise_map.mpr (hslice.timeline_pairwise lane)).imp Int.ne_of_lt

/-- Any slices of a well-formed recording can be written, in any order. -/
theorem HasSlices.exists_score (hrep : r.WellFormed) (h : r.HasSlices slices)
    (settings : Settings) {chosen : List Slice} (hchosen : ∀ s ∈ chosen, s ∈ slices) :
    ∃ s, (Plan.of r settings).score chosen = .ok s := by
  have hcalls : ∀ call ∈ Call.ofSlices chosen, call.slice ∈ slices := by
    intro call hcall
    obtain ⟨s, hs, hcall⟩ := List.mem_flatMap.mp hcall
    rw [Call.slice_of_mem hcall]
    exact hchosen s.1 (List.fst_mem_of_mem_zipIdx hs)
  obtain ⟨s, _, hwrite, _⟩ := Agrees.calls (Plan.proper_of hrep settings) h hcalls
  rw [← Writing.slices_eq_calls] at hwrite
  refine ⟨s, ?_⟩
  rw [Plan.score, hwrite]

/-- Slices that are those of a list without their lengths come from slices of the list. -/
theorem exists_chosen {written : List Slice}
    (hwritten : ∀ s ∈ written, ∃ s₀ ∈ slices, s.unwritten = s₀.unwritten) :
    ∃ chosen : List Slice, (∀ s ∈ chosen, s ∈ slices) ∧
      written.map Slice.unwritten = chosen.map Slice.unwritten := by
  induction written with
  | nil => exact ⟨[], by simp, rfl⟩
  | cons s rest ih =>
    obtain ⟨chosen, hchosen, hsame⟩ := ih (fun s' hs' => hwritten s' (List.mem_cons_of_mem _ hs'))
    obtain ⟨s₀, hs₀, heq⟩ := hwritten s List.mem_cons_self
    refine ⟨s₀ :: chosen, ?_, by rw [List.map_cons, List.map_cons, heq, hsame]⟩
    intro s' hs'
    rcases List.mem_cons.mp hs' with rfl | hs'
    · exact hs₀
    · exact hchosen s' hs'

/-- Slices that are written with several settings stay the same without their lengths. -/
theorem HasSlices.renderAll (hrep : r.WellFormed) (h : r.HasSlices slices)
    (others : List Settings) {written : List Slice}
    (hsame : written.map Slice.unwritten = slices.map Slice.unwritten) :
    ∃ written', InPlace.renderAll r others written = .ok written' ∧
      written'.map Slice.unwritten = slices.map Slice.unwritten := by
  induction others generalizing written with
  | nil => exact ⟨written, rfl, hsame⟩
  | cons settings rest ih =>
    obtain ⟨s, hscore⟩ := h.exists_score hrep settings (fun _ => id)
    have hscore' : (Plan.of r settings).score written = .ok s := by
      rw [Plan.score, Writing.slices_congr hsame]
      exact hscore
    obtain ⟨w, hrender, _, _, _, _, hslices⟩ :=
      InPlace.render_of_score (h.distinct.congr hsame.symm) hscore'
    have hleft : w.slices.map Slice.unwritten = slices.map Slice.unwritten := by
      rw [hslices, ← hsame, List.map_map]
      exact List.map_congr_left (fun s _ => Slice.unwritten_written _ s)
    obtain ⟨written', hrest, hsame'⟩ := ih hleft
    refine ⟨written', ?_, hsame'⟩
    rw [InPlace.renderAll, List.foldlM_cons, hrender]
    exact hrest

/-- **Writing forgets.** Slices of a recording that differ only in the lengths their notes were
written with are written in place with the same text, the same notices and the same counts. So after
a transcription, and after writing its slices any number of times with any settings, they are
written again like in a transcription of their own. -/
theorem writing_forgets {document : Json} (hdocument : ofDocument document = .ok r) :
    ∃ slices, r.slices = .ok slices ∧
      (∀ (settings : Settings) (slices₁ slices₂ : List Slice),
        (∀ s ∈ slices₁, ∃ s₀ ∈ slices, s.unwritten = s₀.unwritten) →
        slices₁.map Slice.unwritten = slices₂.map Slice.unwritten →
        ∃ w₁ w₂, InPlace.render r settings slices₁ = .ok w₁ ∧
          InPlace.render r settings slices₂ = .ok w₂ ∧ r.render settings slices₁ = .ok w₁.text ∧
          w₁.text = w₂.text ∧ w₁.notices = w₂.notices ∧ w₁.statistics = w₂.statistics) ∧
      ∀ (settings : Settings) (others : List Settings) (last : Settings),
        ∃ t written w t', InPlace.transcribe r settings = .ok t ∧
          r.transcribe settings = .ok t ∧ InPlace.renderAll r others t.slices = .ok written ∧
          InPlace.render r last written = .ok w ∧ InPlace.transcribe r last = .ok t' ∧
          r.transcribe last = .ok t' ∧ w.text = t'.text := by
  have hrep := ofDocument_wellFormed hdocument
  obtain ⟨slices, hslices, hhas⟩ := exists_slices hrep
  have htranscribe (settings : Settings) : ∃ s t,
      (Plan.of r settings).score slices = .ok s ∧ r.transcribe settings = .ok t ∧
      InPlace.transcribe r settings = .ok t ∧ t.text = (Plan.of r settings).textOf s ∧
      t.slices.map Slice.unwritten = slices.map Slice.unwritten := by
    obtain ⟨s, hscore⟩ := hhas.exists_score hrep settings (fun _ => id)
    have hok : r.transcribe settings = _ :=
      bind_eq_ok.mpr ⟨slices, hslices, bind_eq_ok.mpr ⟨s, hscore, rfl⟩⟩
    refine ⟨s, _, hscore, hok, (InPlace.transcribe_eq hslices hhas.distinct settings).trans hok,
      rfl, ?_⟩
    rw [List.map_map]
    exact List.map_congr_left (fun s _ => Slice.unwritten_written _ s)
  refine ⟨slices, hslices, fun settings slices₁ slices₂ hof hsame => ?_,
    fun settings others last => ?_⟩
  · obtain ⟨chosen, hchosen, hsame₁⟩ := exists_chosen hof
    obtain ⟨s, hscore⟩ := hhas.exists_score hrep settings hchosen
    have hdistinct : InPlace.Distinct slices₁ :=
      InPlace.Distinct.congr (fun s hs => hhas.distinct s (hchosen s hs)) hsame₁.symm
    have hscore₁ : (Plan.of r settings).score slices₁ = .ok s := by
      rw [Plan.score, Writing.slices_congr hsame₁]
      exact hscore
    have hscore₂ : (Plan.of r settings).score slices₂ = .ok s := by
      rw [Plan.score, ← Writing.slices_congr hsame]
      exact hscore₁
    obtain ⟨w₁, hw₁, hdirect, htext₁, hnotices₁, hstatistics₁, _⟩ :=
      InPlace.render_of_score hdistinct hscore₁
    obtain ⟨w₂, hw₂, _, htext₂, hnotices₂, hstatistics₂, _⟩ :=
      InPlace.render_of_score (hdistinct.congr hsame) hscore₂
    exact ⟨w₁, w₂, hw₁, hw₂, hdirect, htext₁.trans htext₂.symm, hnotices₁.trans hnotices₂.symm,
      hstatistics₁.trans hstatistics₂.symm⟩
  · obtain ⟨_, t, _, htranscribed, hinPlace, _, hsame⟩ := htranscribe settings
    obtain ⟨written, hwritten, hsame'⟩ := hhas.renderAll hrep others hsame
    obtain ⟨s, t', hscore, htranscribed', hinPlace', htext, _⟩ := htranscribe last
    have hscore' : (Plan.of r last).score written = .ok s := by
      rw [Plan.score, Writing.slices_congr hsame']
      exact hscore
    obtain ⟨w, hw, _, htext', _⟩ :=
      InPlace.render_of_score (hhas.distinct.congr hsame'.symm) hscore'
    exact ⟨t, written, w, t', hinPlace, htranscribed, hwritten, hw, hinPlace', htranscribed',
      htext'.trans htext.symm⟩

/-- A pitch that is struck again within the shortest rest is written with its chord only, and on its
own when shorter rests are written; what either leaves behind is forgotten. -/
theorem writing_forgets_strum :
    ∃ r t written w t', ofDocument (.ofSequence
        [("0", [(0, 60, 480), (20, 60, 480), (20, 64, 200), (960, 67, 480)])] [(480, 90)]) = .ok r ∧
      InPlace.transcribe r { minRest := some 240 } = .ok t ∧
      InPlace.renderAll r [{}, { attributes := true, minRest := some 960 }] t.slices =
        .ok written ∧
      InPlace.render r {} written = .ok w ∧ InPlace.transcribe r {} = .ok t' ∧
      w.text = t'.text := by
  obtain ⟨r, hdocument, -⟩ := exists_eq_ok (show (ofDocument (.ofSequence
    [("0", [(0, 60, 480), (20, 60, 480), (20, 64, 200), (960, 67, 480)])]
      [(480, 90)])).toOption.any (fun _ => true) = true by decide +kernel)
  obtain ⟨_, _, _, hagain⟩ := writing_forgets hdocument
  obtain ⟨t, written, w, t', htranscribe, _, hall, hrender, htranscribe', _, htext⟩ :=
    hagain { minRest := some 240 } [{}, { attributes := true, minRest := some 960 }] {}
  exact ⟨r, t, written, w, t', hdocument, htranscribe, hall, hrender, htranscribe', htext⟩

end Recording

end Transcription
