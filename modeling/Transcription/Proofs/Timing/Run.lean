import Transcription.Proofs.Reading.Performance
import Transcription.Proofs.Score.Groups

/-!
# The run of a transcription

A transcription begins its slices one after the other, each under a number of its own, and writes
every chord within the slice that was begun last. At each chord of the run it is known by which part
it is played, with which cursor the part enters, and where the chord starts in the text.
-/

namespace Transcription

open Writing

/-! ### The order of actions -/

/-- The number under which an action begins a slice, if it begins one. -/
def Action.number? : Action → Option Int
  | beginSlice _ number => some number
  | _ => none

/-- Actions within slices: every slice is begun under a number that does not come again, and every
chord lies in the slice that was begun last, the first of these at a given tick. -/
def InOrder : Int → List Action → Prop
  | _, [] => True
  | _, .beginSlice slice number :: rest =>
    (∀ b ∈ rest, b.number? ≠ some number) ∧ InOrder slice.beginTick rest
  | start, .chord c :: rest => c.slice.beginTick = start ∧ InOrder start rest
  | start, _ :: rest => InOrder start rest

/-- The places of the members of a list ascend. -/
theorem pairwise_zipIdx {α : Type} (l : List α) : l.zipIdx.Pairwise (fun a b => a.2 < b.2) := by
  rw [List.pairwise_iff_getElem]
  intro i j hi hj hij
  simpa using hij

/-- Actions in the content of a slice keep the order of what follows. -/
theorem inOrder_content {p : Plan} {slice : Slice} {l rest : List Action}
    (hl : l ⊆ p.content slice) (h : InOrder slice.beginTick rest) :
    InOrder slice.beginTick (l ++ rest) := by
  induction l with
  | nil => exact h
  | cons a l ih =>
    have htail := ih (fun b hb => hl (List.mem_cons_of_mem _ hb))
    rcases Plan.mem_content (hl List.mem_cons_self) with
      rfl | rfl | ⟨channel, tick, rfl⟩ | ⟨channel, g, _, _, rfl⟩
    · exact htail
    · exact htail
    · exact htail
    · exact ⟨rfl, htail⟩

/-- The content of a slice begins no slice. -/
theorem number?_content {p : Plan} {slice : Slice} {a : Action} (h : a ∈ p.content slice) :
    a.number? = none := by
  rcases Plan.mem_content h with rfl | rfl | ⟨channel, tick, rfl⟩ | ⟨channel, g, _, _, rfl⟩ <;> rfl

/-- The actions of a transcription are in order. -/
theorem Plan.inOrder_actions (p : Plan) (slices : List Slice) (start : Int) :
    InOrder start (p.actions slices) := by
  have hzip (k : Nat) (start : Int) : InOrder start ((slices.zipIdx k).flatMap p.sliceActions) := by
    induction slices generalizing k start with
    | nil => trivial
    | cons s slices ih =>
      rw [List.zipIdx_cons, List.flatMap_cons, sliceActions_eq, List.cons_append]
      refine ⟨fun b hb hnumber => ?_, inOrder_content (fun _ h => h) (ih (k + 1) s.beginTick)⟩
      rcases List.mem_append.mp hb with hb | hb
      · rw [number?_content hb] at hnumber
        cases hnumber
      · obtain ⟨⟨s', n⟩, hs', hb⟩ := List.mem_flatMap.mp hb
        have hle := List.le_snd_of_mem_zipIdx hs'
        rw [sliceActions_eq] at hb
        rcases List.mem_cons.mp hb with rfl | hb
        · have heq : (n : Int) = k := Option.some.inj hnumber
          simp only at hle
          omega
        · rw [number?_content hb] at hnumber
          cases hnumber
  rw [actions_eq]
  exact hzip 0 start

/-- The actions of a transcription are valid. -/
theorem Plan.valid_actions {p : Plan} (hp : p.Proper) {slices : List Slice}
    (hslices : p.recording.HasSlices slices) :
    ∀ a ∈ p.actions slices, a.Valid p.tables := by
  intro a ha
  rw [actions_eq] at ha
  obtain ⟨s, hs, ha⟩ := List.mem_flatMap.mp ha
  obtain ⟨call, hcall, ha⟩ := List.mem_flatMap.mp ha
  refine Call.valid_actions hp (i := s.2) ?_ a ha
  rw [Call.slice_of_mem hcall]
  exact hslices.hasSlice s hs

/-- After any part of a transcription there is a score, and a reader that agrees with it. -/
theorem Plan.exists_agrees {p : Plan} (hp : p.Proper) {slices : List Slice}
    (hslices : p.recording.HasSlices slices) {before after : List Action}
    (hsplit : p.actions slices = before ++ after) :
    ∃ s R, Writes (before.forM (Action.write p)) {} () s ∧ Agrees p.tables s R := by
  obtain ⟨s, R, hwrite, hagrees, -⟩ := @Agrees.run p hp _ (valid_actions hp hslices)
    (fun _ _ _ => True) trivial (fun _ _ _ _ _ _ => trivial) _ _ hsplit
  exact ⟨s, R, hwrite, hagrees⟩

/-! ### Playing a chord -/

/-- How a chord is played. -/
structure Play where
  /-- The part that plays the chord. -/
  part : PartId
  /-- The cursor of the part when it has entered the chord. -/
  cursor : Int
  /-- Where the chord starts in the text. -/
  start : Int
  /-- How often a rest was due so far. -/
  tries : Int

/-- A chord is played after some actions: by the part that enters it, and with the start that a
reader of the text hears. -/
def Plan.Plays (p : Plan) (before : List Action) (c : Chord) (play : Play) : Prop :=
  ∃ s jump gap entered s' R' sounds,
    Writes (before.forM (Action.write p)) {} () s ∧
    Writes (enter p c) s (play.part, jump, gap) entered ∧
    play.cursor = (entered.part play.part).cursor ∧ play.tries = entered.tries ∧
    p.Reads (before ++ [.chord c]) s' R' ∧
    R'.heard.getLast? = some ⟨play.part, play.start, sounds⟩

/-- A chord is played in exactly one way, which is known from the clock of its part before. -/
theorem Plan.plays_iff {p : Plan} {before : List Action} {c : Chord} {id : PartId}
    {jump : Option Int} {gap : Option String} {s entered s' : Score} {R R' : Reading}
    (hbefore : Writes (before.forM (Action.write p)) {} () s)
    (henter : Writes (enter p c) s (id, jump, gap) entered)
    (hchord : Writes ((Action.chord c).write p) s () s') (hagrees : Agrees p.tables s' R')
    (hpasses : Passes p.tables c id s R entered s' R') (play : Play) :
    p.Plays before c play ↔
      play = ⟨id, (c.entry p.tables s R id).cursor, (c.entry p.tables s R id).position,
        entered.tries⟩ := by
  have hreads : p.Reads (before ++ [.chord c]) s' R' :=
    ⟨Agrees.writes_append hbefore hchord, hagrees.ofTexts?⟩
  have hlast : R'.heard.getLast? =
      some ⟨id, (c.entry p.tables s R id).position, c.sounds p.tables⟩ := by
    rw [hpasses.heard, List.getLast?_concat]
  constructor
  · rintro ⟨s₁, jump', gap', entered', s₂, R₂, sounds, hbefore', henter', hcursor, htries, hreads',
      hlast'⟩
    obtain ⟨_, rfl⟩ := Writes.unique hbefore hbefore'
    obtain ⟨heq, rfl⟩ := Writes.unique henter henter'
    obtain ⟨_, rfl⟩ := hreads.unique hreads'
    rw [hlast] at hlast'
    have hpart : id = play.part := (Prod.mk.inj heq).1
    have hstart := (Heard.mk.inj (Option.some.inj hlast')).2.1
    obtain ⟨part, cursor, start, tries⟩ := play
    simp only at hpart hstart hcursor htries
    subst hpart hcursor htries
    rw [hstart, hpasses.cursor]
  · rintro rfl
    exact ⟨s, jump, gap, entered, s', R', _, hbefore, henter, hpasses.cursor.symm, rfl, hreads,
      hlast⟩

/-- At every chord of a transcription there is a part that passes through it, and that is how the
chord is played. -/
theorem Plan.exists_passes {p : Plan} (hp : p.Proper) {slices : List Slice}
    (hslices : p.recording.HasSlices slices) {before after : List Action} {c : Chord}
    (hsplit : p.actions slices = before ++ .chord c :: after) {s : Score} {R : Reading}
    (hbefore : Writes (before.forM (Action.write p)) {} () s) (hagrees : Agrees p.tables s R) :
    ∃ id entered s' R', p.Reads (before ++ [.chord c]) s' R' ∧ id ∈ s'.roster.ids ∧
      Passes p.tables c id s R entered s' R' ∧
      ∀ play, p.Plays before c play ↔
        play = ⟨id, (c.entry p.tables s R id).cursor, (c.entry p.tables s R id).position,
          entered.tries⟩ := by
  have hc : c.Valid p.tables := valid_actions hp hslices (.chord c) (by rw [hsplit]; simp)
  obtain ⟨id, jump, gap, entered, s', R', henter, hsound, hagrees', hpasses⟩ :=
    hagrees.chord hp hc
  have hchord := writes_chord henter hsound
  exact ⟨id, entered, s', R', ⟨Agrees.writes_append hbefore hchord, hagrees'.ofTexts?⟩,
    hagrees'.selected id hpasses.current, hpasses,
    plays_iff hbefore henter hchord hagrees' hpasses⟩

end Transcription
