import Transcription.Proofs.Score.Stable

/-!
# Scores without what the settings add

Settings ask for comments at the begins of slices and for changes of quantization and volume before
chords. A bare score has neither, and its parts keep nothing of quantization and volume. Every step
of writing makes of a bare score, with settings that ask for nothing, what is bare of its result. So
two scores whose settings differ only in what they ask for are the same when they are bare.
-/

namespace Transcription

open Writing

/-! ### Bare lines, parts and scores -/

/-- A line without settings of a part; a comment is left out. -/
def Line.bare? : Line → Option Line
  | comment _ => none
  | chord line => some (chord { line with attributes := [] })
  | line => some line

/-- The state of a part that has changed neither its quantization nor its velocity. -/
def PartState.bare (part : PartState) : PartState where
  cursor := part.cursor
  octave := part.octave
  length := part.length

/-- A plan that asks for nothing but the music. -/
def Plan.bare (p : Plan) : Plan :=
  { p with settings :=
    { p.settings with sliceComments := false, attributes := false, statistics := false } }

namespace Roster

/-- The parts with bare states. -/
def bare (r : Roster) : Roster where
  entries := r.entries.map (fun e => (e.1, e.2.bare))
  nodup := by
    rw [List.map_map]
    exact r.nodup

variable {r : Roster} {id : PartId}

@[simp] theorem ids_bare : r.bare.ids = r.ids := List.map_map

/-- The states of the bare parts are bare. -/
@[simp] theorem state_bare : r.bare.state id = (r.state id).bare := by
  have hfind : r.bare.entries.find? (fun e => e.1 = id) =
      (r.entries.find? (fun e => e.1 = id)).map (fun e => (e.1, e.2.bare)) := List.find?_map
  rw [state, state, state?, state?, hfind]
  cases r.entries.find? (fun e => e.1 = id) <;> rfl

/-- A change of a part is seen in the bare parts as a change of its bare state. -/
theorem bare_modify {f g : PartState → PartState} (h : ∀ part, (f part).bare = g part.bare) :
    (r.modify id f).bare = r.bare.modify id g := by
  simp only [bare, modify, List.map_map, mk.injEq]
  apply List.map_congr_left
  intro e _
  by_cases he : e.1 = id <;> simp [he, h]

/-- A declaration adds the same part. -/
theorem bare_add : (r.add id).bare = r.bare.add id := by
  have hids : id ∈ r.bare.entries.map Prod.fst ↔ id ∈ r.entries.map Prod.fst := by
    simp [bare]
  by_cases hmem : id ∈ r.entries.map Prod.fst
  · rw [add, dif_pos hmem, add, dif_pos (hids.mpr hmem)]
  · rw [add, dif_neg hmem, add, dif_neg (mt hids.mp hmem)]
    simp [bare, PartState.bare]

/-- A declaration among the bare parts is the same. -/
theorem bare_declare {channel program : Int} {isNew : Bool} {roster : Roster}
    (h : r.declare channel program = .ok (id, isNew, roster)) :
    r.bare.declare channel program = .ok (id, isNew, roster.bare) := by
  obtain ⟨program', hprogram, h⟩ := bind_eq_ok.mp h
  obtain ⟨channel', hchannel, h⟩ := bind_eq_ok.mp h
  cases h
  refine bind_eq_ok.mpr ⟨program', hprogram, bind_eq_ok.mpr ⟨channel', hchannel, ?_⟩⟩
  rw [ids_bare, bare_add]
  rfl

/-- The bare part that is furthest along is that of the part that is. -/
theorem furthest?_bare : r.bare.furthest? = r.furthest?.map (fun e => (e.1, e.2.bare)) := by
  rw [furthest?, furthest?, bare, List.foldl_map]
  change List.foldl _ (Option.map (fun e : PartId × PartState => (e.1, e.2.bare)) none) _ = _
  refine List.foldl_hom (Option.map (fun e : PartId × PartState => (e.1, e.2.bare)))
    (fun best e => ?_)
  cases best with
  | none => rfl
  | some b =>
    simp only [Option.map_some, PartState.bare]
    by_cases h : b.2.cursor < e.2.cursor <;> simp [h]

end Roster

namespace Score

/-- A score without what the settings add. -/
def bare (s : Score) : Score :=
  { s with
    lines := (s.lines.toList.filterMap Line.bare?).toArray
    roster := s.roster.bare }

variable {s : Score} {p : Plan} {id : PartId}

@[simp] theorem part_bare : s.bare.part id = (s.part id).bare := Roster.state_bare

/-- A line is added bare. -/
theorem bare_addLine {line line' : Line} (h : line.bare? = some line') :
    (s.addLine line).bare = s.bare.addLine line' := by
  simp [bare, addLine, h]

/-- A line that is no bare line is not added. -/
theorem bare_addLine_of_none {line : Line} (h : line.bare? = none) :
    (s.addLine line).bare = s.bare := by
  simp [bare, addLine, h]

/-- A part is changed in the bare score. -/
theorem bare_modifyPart {f g : PartState → PartState} (h : ∀ part, (f part).bare = g part.bare) :
    (s.modifyPart id f).bare = s.bare.modifyPart id g := by
  rw [bare, modifyPart, modifyPart, Roster.bare_modify h]
  rfl

/-- A change that is not seen in a bare part is not seen in the bare score. -/
theorem bare_modifyPart_self {f : PartState → PartState} (h : ∀ part, (f part).bare = part.bare) :
    (s.modifyPart id f).bare = s.bare := by
  rw [bare_modifyPart (g := fun part => part) h, modifyPart, Roster.modify_self rfl]

/-- A part is selected in the bare score. -/
theorem bare_select : (s.select id).bare = s.bare.select id := by
  have hcurrent : s.bare.current = s.current := rfl
  unfold select
  rw [hcurrent]
  split
  · rfl
  · have hline : (s.addLine (.select id)).bare = s.bare.addLine (.select id) := bare_addLine rfl
    rw [← hline]
    rfl

/-- A part is moved on in the bare score. -/
theorem bare_advance (tick : Int) : (s.advance id tick).bare = s.bare.advance id tick := by
  refine bare_modifyPart (fun part => ?_)
  unfold PartState.advanceTo
  have hcursor : part.bare.cursor = part.cursor := rfl
  rw [hcursor]
  split <;> rfl

/-- A rest of a bare score is the same, and leaves the bare score. -/
theorem rest_bare (ticks tick : Int) :
    s.bare.rest p.bare id ticks tick =
      ((s.rest p id ticks tick).1, (s.rest p id ticks tick).2.bare) := by
  have htables : p.bare.tables = p.tables := rfl
  unfold rest
  rw [htables]
  split
  · rfl
  · dsimp only
    split
    · rfl
    · rw [bare_modifyPart (g := fun part =>
        { part with length := LengthTable.text (p.tables.restSummands ticks) }) (fun _ => rfl)]
      rfl

/-- A bare score rests up to the same tick. -/
theorem restUpTo_bare (tick : Int) :
    s.bare.restUpTo p.bare id tick =
      ((s.restUpTo p id tick).1, (s.restUpTo p id tick).2.bare) := by
  have hcursor : (s.bare.part id).cursor = (s.part id).cursor := by rw [part_bare]; rfl
  unfold restUpTo
  rw [hcursor]
  dsimp only
  split
  · rw [rest_bare, bare_advance]
  · rfl

/-- A bare score rests inside a chord in the same way. -/
theorem restInChord_bare (tick : Int) (cut : Option Int) (chordEnd : Int) :
    s.bare.restInChord p.bare id tick cut chordEnd =
      ((s.restInChord p id tick cut chordEnd).1,
        (s.restInChord p id tick cut chordEnd).2.bare) := by
  cases cut with
  | none => rfl
  | some cut =>
    simp only [restInChord, rest_bare]
    cases s.rest p id (cut - tick) tick with
    | mk length s' => cases length <;> rfl

/-- A bare score jumps in the same way. -/
theorem jump_bare (current : Slice) :
    s.bare.jump current id = ((s.jump current id).1, (s.jump current id).2.bare) := by
  have hcursor : (s.bare.part id).cursor = (s.part id).cursor := by rw [part_bare]; rfl
  have hslice : s.bare.slice = s.slice := rfl
  have hmarkers : s.bare.markers = s.markers := rfl
  unfold jump
  rw [hcursor, hslice, hmarkers]
  split
  · rw [bare_modifyPart (g := fun part => { part with cursor := current.beginTick })
      (fun _ => rfl)]
  · rfl

/-- The part that is furthest along rests in a bare score. -/
theorem restBeforeSlice_bare (current : Slice) :
    s.bare.restBeforeSlice p.bare current = (s.restBeforeSlice p current).bare := by
  have hfurthest : s.bare.roster.furthest? =
      s.roster.furthest?.map (fun e => (e.1, e.2.bare)) := Roster.furthest?_bare
  unfold restBeforeSlice
  rw [hfurthest]
  cases s.roster.furthest? with
  | none => rfl
  | some e =>
    obtain ⟨id, part⟩ := e
    have hcursor : part.bare.cursor = part.cursor := rfl
    dsimp only [Option.map_some]
    rw [hcursor]
    split
    · rfl
    · rw [← bare_select, rest_bare, bare_advance]
      generalize (s.select id).rest p id (current.beginTick - part.cursor) part.cursor = x
      obtain ⟨length, s'⟩ := x
      cases length with
      | none => rfl
      | some length =>
        have hline : (s'.addLine (.rest length)).bare = s'.bare.addLine (.rest length) :=
          bare_addLine rfl
        dsimp only
        rw [hline]

/-- A bare score is marked in the same way. -/
theorem mark_bare (current : Slice) : s.bare.mark current = (s.mark current).bare := by
  have hfurthest : s.bare.roster.furthest? =
      s.roster.furthest?.map (fun e => (e.1, e.2.bare)) := Roster.furthest?_bare
  have hslice : s.bare.slice = s.slice := rfl
  unfold mark
  rw [hfurthest, hslice]
  cases s.roster.furthest? with
  | none => rfl
  | some e =>
    obtain ⟨id, part⟩ := e
    have hcursor : part.bare.cursor = part.cursor := rfl
    dsimp only [Option.map_some]
    rw [hcursor]
    split
    · have hline : ((s.select id).addLine (.marker s.slice)).bare =
          (s.bare.select id).addLine (.marker s.slice) := by
        rw [← bare_select]
        exact bare_addLine rfl
      rw [← hline]
      rfl
    · rfl

/-- A slice is begun in the bare score, without a comment. -/
theorem beginSlice_bare (current : Slice) (number : Int) :
    s.bare.beginSlice p.bare current number = (s.beginSlice p current number).bare := by
  have hmarked : (if 0 < number then
      (restBeforeSlice p.bare current { s.bare with slice := number }).mark current
      else { s.bare with slice := number }) =
      (if 0 < number then (restBeforeSlice p current { s with slice := number }).mark current
        else { s with slice := number }).bare := by
    have hnumber : ({ s.bare with slice := number } : Score) =
      bare { s with slice := number } := rfl
    rw [hnumber, restBeforeSlice_bare, mark_bare]
    split <;> rfl
  have hplain : p.bare.settings.sliceComments = false := rfl
  unfold beginSlice
  dsimp only
  rw [hmarked, hplain]
  generalize (if 0 < number then
      (restBeforeSlice p current { s with slice := number }).mark current
      else { s with slice := number }) = marked
  have hblank : (marked.addLine .blank).bare = marked.bare.addLine .blank := bare_addLine rfl
  rw [if_neg Bool.false_ne_true, ← hblank]
  split
  · exact (bare_addLine_of_none rfl).symm
  · rfl

/-- The global settings of a slice are written in the bare score. -/
theorem addGlobals_bare (current : Slice) :
    s.bare.addGlobals current = (s.addGlobals current).bare := by
  have hkey : s.bare.changeKey current =
      ((s.changeKey current).1, (s.changeKey current).2.bare) := by
    unfold changeKey
    split
    · rfl
    · split <;> rfl
  simp only [addGlobals, hkey]
  split
  · rfl
  · exact (bare_addLine rfl).symm

/-- Notes are counted in the bare score. -/
theorem countTones_bare (channel tick : Int) (tones : List Tone) :
    s.bare.countTones channel tick tones = (s.countTones channel tick tones).bare := by
  have hstep (s : Score) (tone : Tone) :
      countTone channel tick s.bare tone = (countTone channel tick s tone).bare := by
    unfold countTone
    split <;> rfl
  exact List.foldl_hom bare hstep

end Score

/-! ### Bare steps -/

namespace Writing

variable {α β γ δ : Type}

/-- One step makes of a bare score what is bare of the result of the other one. -/
def Bares (f : α → β) (m : Writing α) (m' : Writing β) : Prop :=
  ∀ ⦃s a s'⦄, Writes m s a s' → Writes m' s.bare (f a) s'.bare

namespace Bares

/-- Nothing happens. -/
protected theorem pure (f : α → β) (a : α) : Bares f (pure a) (pure (f a)) := by
  rintro s _ _ ⟨⟩
  rfl

/-- Two steps, one after the other. -/
protected theorem bind {f : α → β} {g : γ → δ} {m : Writing α} {m' : Writing β}
    {k : α → Writing γ} {k' : β → Writing δ} (hm : Bares f m m')
    (hk : ∀ a, Bares g (k a) (k' (f a))) : Bares g (m >>= k) (m' >>= k') := by
  intro s c s'' h
  obtain ⟨a, s', hfirst, hsecond⟩ := h.exists_bind
  exact (hm hfirst).bind (hk a hsecond)

/-- The score is read. -/
theorem get {f : α → β} {k : Score → Writing α} {k' : Score → Writing β}
    (h : ∀ s, ∀ ⦃a s'⦄, Writes (k s) s a s' → Writes (k' s.bare) s.bare (f a) s'.bare) :
    Bares f (get >>= k) (get >>= k') := by
  intro s a s'' hwrites
  obtain ⟨_, _, ⟨⟩, hwrites⟩ := hwrites.exists_bind
  exact Writes.bind (a := s.bare) rfl (h s hwrites)

/-- A step that cannot fail. -/
theorem of {f : Score → α × Score} {g : Score → α × Score}
    (h : ∀ s : Score, g s.bare = ((f s).1, (f s).2.bare)) :
    Bares (fun x => x) (Writing.of f) (Writing.of g) := by
  rintro s _ _ ⟨⟩
  have hwrites := Writes.of g s.bare
  rwa [h] at hwrites

/-- A step that cannot fail and gives nothing back. -/
theorem act {f g : Score → Score} (h : ∀ s : Score, g s.bare = (f s).bare) :
    Bares (fun x => x) (Writing.act f) (Writing.act g) := by
  rintro s _ _ ⟨⟩
  have hwrites := Writes.act g s.bare
  rwa [h] at hwrites

/-- Steps for the items of a list. -/
theorem mapM {f : α → Writing β} {g : α → Writing β} (h : ∀ a, Bares (fun x => x) (f a) (g a))
    (l : List α) :
    Bares (fun x => x) (l.mapM f) (l.mapM g) := by
  induction l with
  | nil => exact .pure _ []
  | cons a l ih =>
    rw [List.mapM_cons, List.mapM_cons]
    exact (h a).bind (fun b => ih.bind (fun bs => .pure _ (b :: bs)))

variable (p : Plan)

/-- A change of part. -/
theorem changePart (channel : Int) (lane : Channel) (tick : Int) :
    Bares (fun x => x) (Writing.changePart p channel lane tick)
      (Writing.changePart p.bare channel lane tick) := by
  refine get (fun s id s'' h => ?_)
  obtain ⟨⟨_, isNew, roster⟩, s', hlift, hrest⟩ := h.exists_bind
  obtain ⟨hdeclare, rfl⟩ := hlift.of_lift
  obtain ⟨_, _, ⟨⟩, ⟨⟩⟩ := hrest.exists_bind
  let line : Line := if isNew then .declare id else .select id
  have hline : (s.addLine line).bare = s.bare.addLine line := by
    refine Score.bare_addLine ?_
    unfold line
    split <;> rfl
  have hchanged : Score.bare { s.addLine line with
      roster
      current := some id
      lanes := s.lanes.set lane (some id) lane.isLt } =
      { s.bare.addLine line with
        roster := roster.bare
        current := some id
        lanes := s.bare.lanes.set lane (some id) lane.isLt } := by
    rw [← hline]
    rfl
  refine Writes.bind (Writes.lift (Roster.bare_declare hdeclare) s.bare) ?_
  refine Writes.bind (Writes.act _ s.bare) ?_
  rw [hchanged]
  exact Writes.pure id _

/-- The part for a chord. -/
theorem partFor (channel : Int) (lane : Channel) (tick : Int) :
    Bares (fun x => x) (Writing.partFor p channel lane tick)
      (Writing.partFor p.bare channel lane tick) := by
  refine get (fun s id s' h => ?_)
  have hcurrent : s.bare.current = s.current := rfl
  have hlanes : s.bare.lanes = s.lanes := rfl
  rw [hcurrent, hlanes]
  split at h
  · split at h
    · rename_i hlane
      rw [if_pos hlane]
      exact Bares.pure (fun x => x) _ h
    · rename_i hlane
      rw [if_neg hlane]
      exact changePart p channel lane tick h
  · exact changePart p channel lane tick h

/-- The attributes of a chord are left out. -/
theorem attributes (id : PartId) (tones : List Score.Tone) :
    Bares (fun _ => []) (Writing.attributes p id tones) (Writing.attributes p.bare id tones) := by
  have hnone : Writing.attributes p.bare id tones = pure [] := by
    cases tones <;> rfl
  rw [hnone]
  unfold Writing.attributes
  split
  · exact .pure _ []
  · rename_i tone _
    split
    · exact .pure _ []
    · intro s written s' h
      obtain ⟨quants, s₁, hquant, h⟩ := h.exists_bind
      obtain ⟨volumes, s₂, hvelocity, ⟨⟩⟩ := h.exists_bind
      have hfirst : s₁.bare = s.bare := by
        have hstate : (s.changeQuant id tone).2 = s₁ := (Writes.unique (Writes.of _ s) hquant).2
        rw [← hstate]
        simp only [Score.changeQuant]
        split
        · rfl
        · exact Score.bare_modifyPart_self (fun _ => rfl)
      have hsecond : s'.bare = s₁.bare := by
        have hchange := hvelocity.of_check
        unfold Score.changeVelocity at hchange
        split at hchange
        · cases hchange
          rfl
        · obtain ⟨percent, _, hchange⟩ := bind_eq_ok.mp hchange
          cases hchange
          exact Score.bare_modifyPart_self (fun _ => rfl)
      rw [hsecond, hfirst]
      exact Writes.pure [] s.bare

/-- A note of a chord. -/
theorem note (id : PartId) (tone : Score.Tone) :
    Bares (fun element => element) (Writing.note id tone) (Writing.note id tone) := by
  refine get (fun s element s' h => ?_)
  obtain ⟨⟨name, octave⟩, s₁, hlift, hrest⟩ := h.exists_bind
  obtain ⟨hspell, rfl⟩ := hlift.of_lift
  obtain ⟨_, _, ⟨⟩, ⟨⟩⟩ := hrest.exists_bind
  refine Writes.bind (Writes.lift hspell s.bare) (Writes.bind (Writes.act _ s.bare) ?_)
  rw [Score.part_bare]
  let sung (part : PartState) : PartState := { part with octave, length := tone.written.text }
  have hsung : (s.modifyPart id sung).bare = s.bare.modifyPart id sung :=
    Score.bare_modifyPart (fun _ => rfl)
  change Writes _ (s.bare.modifyPart id sung) _ (s.modifyPart id sung).bare
  rw [hsung]
  exact Writes.pure _ _

/-- A chord. -/
theorem chord (current : Slice) (channel : Int) (lane : Channel) (tick : Int) (next : Option Int)
    (tones : List Score.Tone) :
    Bares (fun x => x) (Writing.chord p current channel lane tick next tones)
      (Writing.chord p.bare current channel lane tick next tones) := by
  refine (partFor p channel lane tick).bind (fun id => ?_)
  refine (of (fun s => Score.jump_bare current)).bind (fun jump => ?_)
  refine (of (fun s => Score.restUpTo_bare tick)).bind (fun gap => ?_)
  refine (attributes p id tones).bind (fun attributes => ?_)
  refine (mapM (note id) tones).bind (fun notes => ?_)
  refine (of (fun s => Score.restInChord_bare tick _ _)).bind (fun rests => act (fun s => ?_))
  let line : ChordLine := { jump, gap, attributes, elements := notes ++ rests.1 }
  have hline : (s.addLine (.chord line)).bare =
      s.bare.addLine (.chord { line with attributes := [] }) := Score.bare_addLine rfl
  rw [Score.bare_advance, hline]

/-- An action. -/
theorem action (a : Action) : Bares (fun x => x) (a.write p) (a.write p.bare) := by
  cases a with
  | beginSlice slice number => exact act (fun s => Score.beginSlice_bare slice number)
  | globals slice => exact act (fun s => Score.addGlobals_bare slice)
  | blank => exact act (fun s => (Score.bare_addLine rfl).symm)
  | change channel tick =>
    exact (changePart p channel.val channel tick).bind (fun _ => .pure _ ())
  | chord c =>
    refine (act (fun s => Score.countTones_bare c.channel.val c.tick c.tones)).bind (fun _ => ?_)
    exact chord p c.slice c.channel.val c.channel c.tick c.next c.tones

/-- A run of actions. -/
theorem run (actions : List Action) :
    Bares (fun x => x) (actions.forM (Action.write p)) (actions.forM (Action.write p.bare)) := by
  induction actions with
  | nil => exact .pure _ ()
  | cons a rest ih => exact (action p a).bind (fun _ => ih)

end Bares

end Writing

/-- Whatever the settings ask for, the bare score is the one that is written without asking for
anything. -/
theorem Plan.score_bare {p : Plan} {slices : List Slice} {s : Score} (h : p.score slices = .ok s) :
    p.bare.score slices = .ok s.bare :=
  score_eq_ok.mpr (Bares.run p (p.actions slices) (score_eq_ok.mp h))

/-- Two scores for the same slices whose settings agree but for what they ask for are the same when
they are bare. -/
theorem Plan.bare_eq_of_score {p p' : Plan} (hplans : p.bare = p'.bare) {slices : List Slice}
    {s s' : Score} (h : p.score slices = .ok s) (h' : p'.score slices = .ok s') :
    s.bare = s'.bare := by
  have hsame := score_bare h
  rw [hplans, score_bare h'] at hsame
  exact (Except.ok.inj hsame).symm

end Transcription
