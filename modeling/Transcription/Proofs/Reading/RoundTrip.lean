import Transcription.Proofs.Reading.Performance
import Transcription.Proofs.Score.Groups

/-!
# Reading a score back

Whatever calls are made for the slices of a recording, and in whatever order, the text so far can be
read. The reader then knows what the score knows: the parts, the selected one, the key, and each
part's octave and length. It has heard the chords that were written, each of them from the part that
played it, with all pitches and lengths.
-/

namespace Transcription

open Writing

/-! ### The chords of a run -/

/-- The chords of a run, each with the part that plays it: the one that is selected then. -/
def Plan.played (p : Plan) : List Action → Score → List (PartId × Chord)
  | [], _ => []
  | a :: rest, s =>
    match (a.write p).run s with
    | .ok () s' => (a.chord?.bind (fun c => s'.current.map (fun id => (id, c)))).toList ++
        p.played rest s'
    | .error _ _ => []

/-- How far the reading of a run has come: of its chords some are heard, and the others are still to
be written. -/
def Plan.Hears (p : Plan) (actions : List Action) (s : Score) (R : Reading)
    (rest : List Action) : Prop :=
  ∃ done, done ++ p.played rest s = p.played actions {} ∧
    done.map Prod.snd ++ rest.filterMap Action.chord? = actions.filterMap Action.chord? ∧
    (∀ d ∈ done, d.1.channel = d.2.channel) ∧
    R.heard.map (fun h => (h.part, h.sounds)) = done.map (fun d => (d.1, d.2.sounds p.tables))

/-- Every action that is a chord is heard, and no other one is. -/
theorem Plan.Hears.step {p : Plan} {actions rest : List Action} {a : Action} {s s' : Score}
    {R R' : Reading} (h : p.Hears actions s R (a :: rest)) (hwrite : Writes (a.write p) s () s')
    (heffect : a.Effect p s R s' R') : p.Hears actions s' R' rest := by
  obtain ⟨done, hplayed, hchords, hchannels, hheard⟩ := h
  have hrun : (a.write p).run s = .ok () s' := hwrite
  rw [Plan.played, hrun] at hplayed
  have hsilent (hchord : a.chord? = none) (hsame : R'.heard = R.heard) :
      p.Hears actions s' R' rest := by
    refine ⟨done, ?_, ?_, hchannels, hsame ▸ hheard⟩
    · simpa [hchord] using hplayed
    · simpa [hchord] using hchords
  cases a with
  | beginSlice slice number => exact hsilent rfl heffect.heard
  | globals slice => exact hsilent rfl (Still.heard heffect)
  | blank => exact hsilent rfl (Still.heard heffect)
  | change channel tick => exact hsilent rfl (Still.heard heffect)
  | chord c =>
    obtain ⟨id, jump, gap, entered, henter, hpasses⟩ := heffect
    refine ⟨done ++ [(id, c)], ?_, ?_, fun d hd => ?_, ?_⟩
    · simpa [Action.chord?, hpasses.current] using hplayed
    · simpa [Action.chord?] using hchords
    · rcases List.mem_append.mp hd with hd | hd
      · exact hchannels d hd
      · rw [List.mem_singleton.mp hd]
        exact hpasses.channel
    · rw [hpasses.heard, List.map_append, hheard]
      simp

/-- Calls for slices of a well-formed recording are made, and the text can be read. -/
theorem Agrees.calls {p : Plan} (hp : p.Proper) {slices : List Slice}
    (hslices : p.recording.HasSlices slices) {calls : List Call}
    (hcalls : ∀ call ∈ calls, call.slice ∈ slices) :
    ∃ s R, Writes (calls.forM (Call.write p)) {} () s ∧ Agrees p.tables s R ∧
      p.Hears (calls.flatMap (Call.actions p)) s R [] := by
  have hvalid : ∀ a ∈ calls.flatMap (Call.actions p), a.Valid p.tables := by
    intro a ha
    obtain ⟨call, hcall, ha⟩ := List.mem_flatMap.mp ha
    obtain ⟨i, _, hslice⟩ := hslices.exists_place (hcalls call hcall)
    exact Call.valid_actions hp hslice a ha
  have hstart : p.Hears (calls.flatMap (Call.actions p)) {} {}
      (calls.flatMap (Call.actions p)) := ⟨[], by simp, by simp, by simp, rfl⟩
  obtain ⟨s, R, hwrite, hagrees, hhears⟩ := Agrees.run hp hvalid hstart
    (fun _ _ hhears hwrite _ heffect => hhears.step hwrite heffect) (List.append_nil _).symm
  rw [← calls_eq] at hwrite
  exact ⟨s, R, hwrite, hagrees, hhears⟩

/-- The slices of a well-formed recording are written one after the other, and the text can be
read. -/
theorem Agrees.slices {p : Plan} (hp : p.Proper) {slices : List Slice}
    (hslices : p.recording.HasSlices slices) :
    ∃ s R, Writes ((p.actions slices).forM (Action.write p)) {} () s ∧ Agrees p.tables s R ∧
      p.Hears (p.actions slices) s R [] := by
  have hcalls : ∀ call ∈ Call.ofSlices slices, call.slice ∈ slices := by
    intro call hcall
    obtain ⟨s, hs, hcall⟩ := List.mem_flatMap.mp hcall
    rw [Call.slice_of_mem hcall]
    exact List.fst_mem_of_mem_zipIdx hs
  obtain ⟨s, R, hwrite, hagrees, hhears⟩ := Agrees.calls hp hslices hcalls
  rw [calls_eq] at hwrite
  exact ⟨s, R, hwrite, hagrees, hhears⟩

/-- **Reading back.** After any calls for the slices of a recording the text can be read. The reader
knows the declared parts, the selected one, the key, and every part's octave and length as the score
does, and it has heard exactly the chords of the calls, in order: each from the part that played it,
with the pitches and the lengths of its notes, and with the length of the rest inside. -/
theorem Recording.read_back {document : Json} {r : Recording}
    (hdocument : Recording.ofDocument document = .ok r) (settings : Settings) :
    ∃ slices, r.slices = .ok slices ∧ ∀ calls : List Call,
      (∀ call ∈ calls, call.slice ∈ slices) →
      let p := Plan.of r settings
      let actions := calls.flatMap (Call.actions p)
      ∃ s R, (calls.forM (Call.write p)).run {} = .ok () s ∧
        Reading.ofTexts? p.tables (s.lines.toList.map Line.text) = some R ∧
        R.declared = s.roster.ids ∧ R.current = s.current ∧ R.key = s.key ∧
        (∀ id, (R.voice id).octave = (s.part id).octave ∧
          (R.voice id).length = (s.part id).length) ∧
        (p.played actions {}).map Prod.snd = actions.filterMap Action.chord? ∧
        (∀ x ∈ p.played actions {}, x.1.channel = x.2.channel) ∧
        R.heard.map (fun h => (h.part, h.sounds)) =
          (p.played actions {}).map (fun x => (x.1, x.2.sounds p.tables)) := by
  have hwellFormed := Recording.ofDocument_wellFormed hdocument
  obtain ⟨slices, hslices, hhas⟩ := Recording.exists_slices hwellFormed
  refine ⟨slices, hslices, ?_⟩
  intro calls hcalls
  obtain ⟨s, R, hwrite, hagrees, done, hplayed, hchords, hchannels, hheard⟩ :=
    Agrees.calls (Plan.proper_of hwellFormed settings) hhas hcalls
  simp only [Plan.played, List.append_nil] at hplayed
  simp only [List.filterMap_nil, List.append_nil] at hchords
  subst hplayed
  exact ⟨s, R, hwrite, hagrees.ofTexts?, hagrees.declared, hagrees.current, hagrees.key,
    fun id => ⟨hagrees.octave id, hagrees.length id⟩, hchords, hchannels, hheard⟩

/-- Two slices whose music is written backwards, without their begins, are read back. -/
theorem Recording.read_back_backwards :
    ∃ r slices s R,
      Recording.ofDocument
        (.ofSequence [("0", [(0, 60, 480), (0, 64, 960), (480, 67, 480)])] [(480, 90)]) = .ok r ∧
      r.slices = .ok slices ∧
      ((slices.reverse.map (fun s => Call.channelBlock s 0)).forM (Call.write (Plan.of r {}))).run
        {} = .ok () s ∧
      Reading.ofTexts? (Plan.of r {}).tables (s.lines.toList.map Line.text) = some R ∧
      R.current = s.current := by
  obtain ⟨r, hdocument, -⟩ := exists_eq_ok (show (Recording.ofDocument (.ofSequence
    [("0", [(0, 60, 480), (0, 64, 960), (480, 67, 480)])] [(480, 90)])).toOption.any
      (fun _ => true) = true by decide +kernel)
  obtain ⟨slices, hslices, hcalls⟩ := Recording.read_back hdocument {}
  have hmem : ∀ call ∈ slices.reverse.map (fun s => Call.channelBlock s 0),
      call.slice ∈ slices := by
    intro call hcall
    obtain ⟨s, hs, rfl⟩ := List.mem_map.mp hcall
    exact List.mem_reverse.mp hs
  obtain ⟨s, R, hrun, hread, _, hcurrent, _⟩ := hcalls _ hmem
  exact ⟨r, slices, s, R, hdocument, hslices, hrun, hread, hcurrent⟩

end Transcription
