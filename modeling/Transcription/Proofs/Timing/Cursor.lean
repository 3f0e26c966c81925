import Mathlib.Data.List.Infix
import Transcription.Proofs.Timing.Run

/-!
# Parts that fall behind their own text

The cursor of a part runs ahead of its text by what was left out of rests. It falls behind the text
only at a chord that starts late in the text: such a chord may end in the text after the tick at
which its part takes itself to be. Nothing else makes a cursor fall behind.
-/

namespace Transcription

open Writing

/-! ### Clocks that are not behind -/

namespace Clock

variable {t : LengthTables} {k : Clock} {tick : Int}

/-- A rest takes up no more in the text than it moves the cursor. -/
theorem restTo_notBehind (ht : t.Proper) (h : k.position ≤ k.cursor) :
    (k.restTo t tick).position ≤ (k.restTo t tick).cursor := by
  unfold restTo
  split
  · have := (ht.restTicks_bounds (show 0 ≤ tick - k.cursor by omega)).2
    simp only
    omega
  · exact h

/-- A marker that is not beyond the begin of its slice puts nobody behind. -/
theorem jumpTo_notBehind {mark : Option Int} (hmark : ∀ m, mark = some m → m ≤ tick)
    (h : k.position ≤ k.cursor) : (k.jumpTo tick mark).position ≤ (k.jumpTo tick mark).cursor := by
  cases mark with
  | none => exact h
  | some m =>
    unfold jumpTo
    simp only
    split
    · exact hmark m rfl
    · exact h

end Clock

namespace Chord

variable {t : LengthTables} {c : Chord}

/-- A chord takes up no more in the text than up to the tick at which it is left. -/
theorem Valid.lasting_bounds (h : c.Valid t) (ht : t.Proper) :
    c.tick < c.leave t ∧ c.lasting t ≤ c.leave t - c.tick := by
  unfold lasting
  cases hrest : c.rest? t with
  | none =>
    have := h.tick_lt_noteEnd
    simp only [leave_of_no_rest hrest, Option.isSome_none, Bool.false_eq_true, if_false]
    omega
  | some length =>
    obtain ⟨_, _, hlt⟩ := leave_of_rest hrest
    have := (ht.restTicks_bounds (show 0 ≤ c.leave t - c.tick by omega)).2
    simp only [Option.isSome_some, if_true]
    exact ⟨hlt, this⟩

end Chord

/-! ### The invariant -/

/-- No part is behind its text, and no marker that is yet to be used puts it there. -/
structure NotBehind (s : Score) (R : Reading) (start : Int) (rest : List Action) : Prop where
  inOrder : InOrder start rest
  clocks : ∀ id, (clock s R id).position ≤ (clock s R id).cursor
  mark : ∀ m, R.mark? s.slice = some m → m ≤ start
  fresh : ∀ b ∈ rest, ∀ n, b.number? = some n → R.mark? n = none

/-- Nobody is behind before a transcription. -/
theorem Plan.notBehind_start (p : Plan) (slices : List Slice) :
    NotBehind {} {} 0 (p.actions slices) :=
  ⟨p.inOrder_actions slices 0, fun _ => Int.le_refl _,
    fun _ hm => absurd hm (by simp [Reading.mark?]), fun _ _ _ _ => rfl⟩

namespace NotBehind

variable {p : Plan} {s s' : Score} {R R' : Reading} {start : Int} {rest : List Action}

/-- A part enters a chord of the slice without falling behind. -/
theorem entry {c : Chord} (h : NotBehind s R start (.chord c :: rest)) {t : LengthTables}
    (ht : t.Proper) (id : PartId) : (c.entry t s R id).position ≤ (c.entry t s R id).cursor := by
  have hstart : c.slice.beginTick = start := h.inOrder.1
  refine Clock.restTo_notBehind ht (Clock.jumpTo_notBehind (fun m hm => ?_) (h.clocks id))
  rw [hstart]
  exact h.mark m hm

/-- Steps that move nobody put nobody behind. -/
theorem still {a : Action} (h : NotBehind s R start (a :: rest)) (hinOrder : InOrder start rest)
    (hstill : Still s R s' R') : NotBehind s' R' start rest where
  inOrder := hinOrder
  clocks id := by
    rw [hstill.clocks]
    exact h.clocks id
  mark m hm := by
    rw [hstill.marks, hstill.slice] at hm
    exact h.mark m hm
  fresh b hb n hn := by
    rw [hstill.marks]
    exact h.fresh b (List.mem_cons_of_mem _ hb) n hn

/-- The begin of a slice puts nobody behind. -/
theorem begins (hp : p.Proper) {slice : Slice} {number : Int}
    (h : NotBehind s R start (.beginSlice slice number :: rest))
    (hbegins : Begins p.tables slice.beginTick number s R s' R') :
    NotBehind s' R' slice.beginTick rest := by
  have hclocks (id : PartId) : (clock s' R' id).position ≤ (clock s' R' id).cursor := by
    rcases hbegins.clocks id with hold | ⟨_, _, hrest, _⟩
    · rw [hold]
      exact h.clocks id
    · rw [hrest]
      exact Clock.restTo_notBehind hp.tables (h.clocks id)
  refine ⟨h.inOrder.2, hclocks, fun m hm => ?_, fun b hb n hn => ?_⟩
  · rw [hbegins.slice] at hm
    rcases hbegins.marks number with hold | ⟨_, _, id, hcursor, hmark⟩
    · have hnone := h.fresh _ List.mem_cons_self number rfl
      rw [hold, hnone] at hm
      cases hm
    · rw [hmark] at hm
      cases hm
      rw [← hcursor]
      exact hclocks id
  · have hne : n ≠ number := by
      rintro rfl
      exact h.inOrder.1 b hb hn
    rcases hbegins.marks n with hold | ⟨_, heq, _⟩
    · rw [hold]
      exact h.fresh b (List.mem_cons_of_mem _ hb) n hn
    · exact absurd heq hne

/-- A chord that ends in the text by the time its part does puts nobody behind. -/
theorem passes {c : Chord} {id : PartId} {entered : Score}
    (h : NotBehind s R start (.chord c :: rest)) (hpasses : Passes p.tables c id s R entered s' R')
    (hend : (c.entry p.tables s R id).position + c.lasting p.tables ≤
      max (c.entry p.tables s R id).cursor (c.leave p.tables)) :
    NotBehind s' R' start rest where
  inOrder := h.inOrder.2
  clocks id' := by
    by_cases heq : id' = id
    · rw [heq, hpasses.left]
      exact hend
    · rw [hpasses.others id' heq]
      exact h.clocks id'
  mark m hm := by
    rw [hpasses.marks, hpasses.slice] at hm
    exact h.mark m hm
  fresh b hb n hn := by
    rw [hpasses.marks]
    exact h.fresh b (List.mem_cons_of_mem _ hb) n hn

end NotBehind

/-! ### The exact condition -/

/-- Every chord that starts in the text after its onset ends in the text by the time its part does:
by the cursor with which the part entered, or by the tick at which the chord is left. -/
def Plan.LateChordsEnd (p : Plan) (actions : List Action) : Prop :=
  ∀ before c after play, actions = before ++ .chord c :: after → p.Plays before c play →
    c.tick < play.start →
    play.start + c.lasting p.tables ≤ max play.cursor (c.leave p.tables)

/-- If late chords end in time, then no part falls behind its text. -/
theorem Plan.LateChordsEnd.notBehind {p : Plan} (hp : p.Proper) {slices : List Slice}
    (hslices : p.recording.HasSlices slices)
    (hlate : p.LateChordsEnd (p.actions slices)) {before after : List Action}
    (hsplit : p.actions slices = before ++ after) :
    ∃ s R, Writes (before.forM (Action.write p)) {} () s ∧ Agrees p.tables s R ∧
      ∃ start, NotBehind s R start after := by
  have hvalid := Plan.valid_actions hp hslices
  have hstart : ∃ start, NotBehind {} {} start (p.actions slices) :=
    ⟨0, p.notBehind_start slices⟩
  -- what is preserved speaks of the actions to come, for a marker is used after it is written
  refine @Agrees.run p hp _ hvalid (fun s R rest => ∃ start, NotBehind s R start rest) hstart ?_
    _ _ hsplit
  rintro before a rest s R s' R' hsplit hbefore ⟨start, hinv⟩ hwrite hagrees heffect
  cases a with
  | beginSlice slice number => exact ⟨_, hinv.begins hp heffect⟩
  | globals slice => exact ⟨start, hinv.still hinv.inOrder heffect⟩
  | blank => exact ⟨start, hinv.still hinv.inOrder heffect⟩
  | change channel tick => exact ⟨start, hinv.still hinv.inOrder heffect⟩
  | chord c =>
    obtain ⟨id, jump, gap, entered, henter, hpasses⟩ := heffect
    have hc : c.Valid p.tables := hvalid (.chord c) (by rw [hsplit]; simp)
    have hplays := (Plan.plays_iff hbefore henter hwrite hagrees hpasses _).mpr rfl
    refine ⟨start, hinv.passes hpasses ?_⟩
    by_cases hstarts : c.tick < (c.entry p.tables s R id).position
    · exact hlate before c rest _ hsplit hplays hstarts
    · obtain ⟨_, hlasting⟩ := hc.lasting_bounds hp.tables
      omega

/-- **No part falls behind its own text exactly if late chords end in time.** After every step of
a transcription the text so far can be read, and the cursors of all declared parts are at or beyond
the places in the text exactly if every chord that starts in the text after its onset ends there by
the time its part does. -/
theorem Recording.cursors_notBehind_iff {document : Json} {r : Recording}
    (hdocument : Recording.ofDocument document = .ok r) (settings : Settings) :
    let p := Plan.of r settings
    ∃ slices, r.slices = .ok slices ∧
      (∀ steps, steps <+: p.actions slices → ∃ s R, p.Reads steps s R) ∧
      ((∀ steps s R, steps <+: p.actions slices → p.Reads steps s R →
          ∀ id ∈ s.roster.ids, (R.voice id).position ≤ (s.part id).cursor) ↔
        p.LateChordsEnd (p.actions slices)) := by
  intro p
  have hwellFormed := Recording.ofDocument_wellFormed hdocument
  have hp : p.Proper := Plan.proper_of hwellFormed settings
  obtain ⟨slices, hslices, hhas⟩ := Recording.exists_slices hwellFormed
  have hvalid := Plan.valid_actions hp hhas
  refine ⟨slices, hslices, ?_, ?_, ?_⟩
  · rintro steps ⟨rest, hsplit⟩
    obtain ⟨s, R, hwrite, hagrees⟩ := Plan.exists_agrees hp hhas hsplit.symm
    exact ⟨s, R, hwrite, hagrees.ofTexts?⟩
  · intro hall before c after play hsplit hplays _
    obtain ⟨s, R, hbefore, hagrees⟩ := Plan.exists_agrees hp hhas hsplit
    obtain ⟨id, entered, s', R', hreads, hid, hpasses, hiff⟩ :=
      Plan.exists_passes hp hhas hsplit hbefore hagrees
    rw [hiff] at hplays
    have hafter := hall (before ++ [.chord c]) s' R' ⟨after, by rw [hsplit]; simp⟩ hreads id hid
    have hleft := hpasses.left
    simp only [clock, Clock.mk.injEq] at hleft
    rw [hleft.1, hleft.2] at hafter
    rw [hplays]
    exact hafter
  · rintro hlate steps s R ⟨rest, hsplit⟩ hreads id -
    obtain ⟨s', R', hwrite, hagrees, start, hinv⟩ := hlate.notBehind hp hhas hsplit.symm
    obtain ⟨rfl, rfl⟩ := hreads.unique ⟨hwrite, hagrees.ofTexts?⟩
    exact hinv.clocks id

/-! ### Points of a run -/

/-- A test of the score after some actions, and of what a reader makes of its lines. -/
def Plan.testAfter (p : Plan) (test : Score → Reading → Bool) (steps : List Action) : Bool :=
  match (steps.forM (Action.write p)).run {} with
  | .ok () s => (Reading.ofLines? p.tables s.lines).any (test s)
  | .error _ _ => false

/-- At every point of a transcription the test is one of what is written and read up to there. -/
theorem Plan.testAfter_eq {p : Plan} (hp : p.Proper) {slices : List Slice}
    (hslices : p.recording.HasSlices slices) {steps : List Action}
    (hsteps : steps <+: p.actions slices) {s : Score} {R : Reading} (hreads : p.Reads steps s R)
    (test : Score → Reading → Bool) : p.testAfter test steps = test s R := by
  obtain ⟨rest, hsplit⟩ := hsteps
  obtain ⟨s', R', hwrite, hagrees⟩ := Plan.exists_agrees hp hslices hsplit.symm
  obtain ⟨rfl, rfl⟩ := hreads.unique ⟨hwrite, hagrees.ofTexts?⟩
  rw [testAfter, hreads.1]
  simp only [hagrees.reads, Option.any_some]

/-- No part is behind its text. -/
def Score.keepsUp (s : Score) (R : Reading) : Bool :=
  s.roster.ids.all (fun id => (R.voice id).position ≤ (s.part id).cursor)

/-- With no rest below a quarter, the part of channel 0 is already past the note at tick 100 when
it enters it. It rests inside this note, which therefore ends in time, and then before a slice whose
marker the other channel jumps to. -/
theorem Recording.cursors_notBehind_iff_late :
    ∃ r slices, Recording.ofDocument (.ofSequence
        [("0", [(0, 60, 240), (100, 62, 960), (720, 64, 480)]), ("1", [(2400, 48, 480)])]
        [(100, 90), (2400, 120)]) = .ok r ∧
      r.slices = .ok slices ∧
      let p := Plan.of r { minRest := some 480 }
      (∃ before c after play, p.actions slices = before ++ .chord c :: after ∧
        p.Plays before c play ∧ c.tick = 100 ∧ play.start = 240) ∧
      (∀ steps s R, steps <+: p.actions slices → p.Reads steps s R →
        ∀ id ∈ s.roster.ids, (R.voice id).position ≤ (s.part id).cursor) ∧
      p.LateChordsEnd (p.actions slices) := by
  obtain ⟨r, hdocument, hr⟩ := exists_eq_ok (show (Recording.ofDocument (.ofSequence
    [("0", [(0, 60, 240), (100, 62, 960), (720, 64, 480)]), ("1", [(2400, 48, 480)])]
    [(100, 90), (2400, 120)])).toOption.any (fun r => r.slices.toOption.any (fun slices =>
      let p := Plan.of r { minRest := some 480 }
      let late := (p.actions slices)[7]?.bind Action.chord?
      late.any (fun c => c.tick = 100) &&
        (p.testAfter (fun _ R => R.heard.getLast?.any (fun h => h.start = 240))
            ((p.actions slices).take 8) &&
          (p.actions slices).inits.all (p.testAfter Score.keepsUp)))) = true by decide +kernel)
  obtain ⟨slices, hslices, hiff⟩ :=
    Recording.cursors_notBehind_iff hdocument { minRest := some 480 }
  refine ⟨r, slices, hdocument, hslices, ?_⟩
  intro p
  have hwellFormed := Recording.ofDocument_wellFormed hdocument
  have hp : p.Proper := Plan.proper_of hwellFormed _
  obtain ⟨slices', hslices', hhas⟩ := Recording.exists_slices hwellFormed
  obtain rfl : slices = slices' := Except.ok.inj (hslices.symm.trans hslices')
  rw [hslices] at hr
  simp only [Except.toOption, Option.any_some, Bool.and_eq_true, Option.any_eq_true,
    decide_eq_true_eq, List.all_eq_true] at hr
  obtain ⟨⟨c, hlate, htick⟩, hstart, hkeepsUp⟩ := hr
  have hall : ∀ steps s R, steps <+: p.actions slices → p.Reads steps s R →
      ∀ id ∈ s.roster.ids, (R.voice id).position ≤ (s.part id).cursor := by
    intro steps s R hsteps hreads id hid
    have htest := hkeepsUp steps ((List.mem_inits _ _).mpr hsteps)
    rw [Plan.testAfter_eq hp hhas hsteps hreads] at htest
    exact of_decide_eq_true (List.all_eq_true.mp htest id hid)
  refine ⟨?_, hall, hiff.2.mp hall⟩
  obtain ⟨a, hget, ha⟩ := Option.bind_eq_some_iff.mp hlate
  cases a with
  | chord c' =>
    cases ha
    obtain ⟨hlt, hget⟩ := List.getElem?_eq_some_iff.mp hget
    have hsplit : p.actions slices =
        (p.actions slices).take 7 ++ .chord c :: (p.actions slices).drop 8 := by
      rw [← hget, ← List.drop_eq_getElem_cons hlt, List.take_append_drop]
    obtain ⟨s, R, hbefore, hagrees⟩ := Plan.exists_agrees hp hhas hsplit
    obtain ⟨id, entered, s', R', hreads, -, hpasses, hplays⟩ :=
      Plan.exists_passes hp hhas hsplit hbefore hagrees
    refine ⟨_, c, _, _, hsplit, (hplays _).mpr rfl, htick, ?_⟩
    have hsteps : (p.actions slices).take 7 ++ [.chord c] = (p.actions slices).take 8 := by
      rw [← hget, List.take_concat_get' _ 7 hlt]
    rw [hsteps] at hreads
    rw [Plan.testAfter_eq hp hhas (List.take_prefix _ _) hreads, hpasses.heard,
      List.getLast?_concat] at hstart
    exact of_decide_eq_true hstart
  | _ => cases ha

/-- A slice that begins one tick after a note leaves no room for a rest. The part enters the next
note at the end of the first one, and after it takes itself to be 479 ticks before its own text. -/
theorem Recording.cursor_behind :
    ∃ r slices s R,
      Recording.ofDocument (.ofSequence [("0", [(480, 60, 480), (481, 62, 480)])] [(481, 90)]) =
        .ok r ∧
      r.slices = .ok slices ∧ (Plan.of r {}).Reads ((Plan.of r {}).actions slices) s R ∧
      ⟨0, 0⟩ ∈ s.roster.ids ∧ (s.part ⟨0, 0⟩).cursor = 961 ∧ (R.voice ⟨0, 0⟩).position = 1440 := by
  let check (p : Plan) (s : Score) : Bool :=
    (⟨0, 0⟩ ∈ s.roster.ids) && (s.part ⟨0, 0⟩).cursor = 961 &&
      (Reading.ofLines? p.tables s.lines).any (fun R => (R.voice ⟨0, 0⟩).position = 1440)
  obtain ⟨r, hdocument, hr⟩ := exists_eq_ok (show (Recording.ofDocument (.ofSequence
    [("0", [(480, 60, 480), (481, 62, 480)])] [(481, 90)])).toOption.any
      (fun r => r.slices.toOption.any (fun slices =>
        ((Plan.of r {}).score slices).toOption.any (check (Plan.of r {})))) = true by
      decide +kernel)
  obtain ⟨slices, hslices, hr⟩ := exists_eq_ok hr
  obtain ⟨s, hscore, hs⟩ := exists_eq_ok hr
  simp only [check, Bool.and_eq_true, decide_eq_true_eq, Option.any_eq_true] at hs
  obtain ⟨⟨hid, hcursor⟩, R, hread, hposition⟩ := hs
  have hwellFormed := Recording.ofDocument_wellFormed hdocument
  have hp := Plan.proper_of hwellFormed {}
  obtain ⟨slices', hslices', hhas⟩ := Recording.exists_slices hwellFormed
  obtain rfl : slices = slices' := Except.ok.inj (hslices.symm.trans hslices')
  obtain ⟨s', R', hwrite, hagrees⟩ := Plan.exists_agrees hp hhas (List.append_nil _).symm
  have hwrite' := Plan.score_eq_ok.mp hscore
  -- the evaluated score is the one that a reader agrees with, so its text can be read
  obtain ⟨_, rfl⟩ := Writes.unique hwrite' hwrite
  obtain rfl : R = R' := Option.some.inj (hread.symm.trans hagrees.reads)
  exact ⟨r, slices, s, R, hdocument, hslices, ⟨hwrite', hagrees.ofTexts?⟩, hid, hcursor, hposition⟩

end Transcription
