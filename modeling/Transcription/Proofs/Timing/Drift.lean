import Transcription.Proofs.Timing.Cursor
import Transcription.Proofs.Timing.Spacing

/-!
# The drift of a part

What is left out of rests makes a part start its chords early in the text. In a spaced recording no
part enters a chord late, so each rest that was due adds less than the shortest rest to the drift,
and nothing else adds to it.
-/

namespace Transcription

open Writing

/-! ### The drift of a clock -/

/-- By how much the cursor of a part is ahead of its text. -/
def Clock.drift (k : Clock) : Int := k.cursor - k.position

namespace Clock

variable {t : LengthTables} {k : Clock} {tick tries : Int}

/-- A rest adds less than the shortest rest to the drift. -/
theorem drift_restTo (ht : t.Proper) (hrest : ∃ e ∈ t.rests.entries, t.minRest ≤ e.1)
    (h : k.drift ≤ tries * (t.shortestRest - 1)) :
    (k.restTo t tick).drift ≤
      (tries + if k.cursor < tick then 1 else 0) * (t.shortestRest - 1) := by
  unfold restTo
  split
  · have hless := ht.sub_restTicks_lt hrest (show 0 ≤ tick - k.cursor by omega)
    have hsum : (tries + 1) * (t.shortestRest - 1) =
        tries * (t.shortestRest - 1) + (t.shortestRest - 1) := by
      rw [Int.add_mul, Int.one_mul]
    unfold drift at h ⊢
    simp only
    omega
  · rw [Int.add_zero]
    exact h

/-- A jump to a marker gives a part the drift of the marker. -/
theorem drift_jumpTo {mark : Option Int} {bound : Int}
    (hmark : ∀ m, mark = some m → tick - m ≤ bound) (h : k.drift ≤ bound) :
    (k.jumpTo tick mark).drift ≤ bound := by
  cases mark with
  | none => exact h
  | some m =>
    unfold jumpTo
    simp only
    split
    · exact hmark m rfl
    · exact h

/-- A jump to a marker leaves a part before every tick that the marker and the part are before. -/
theorem cursor_jumpTo_le {mark : Option Int} {later : Int} (htick : tick ≤ later)
    (h : k.cursor ≤ later) : (k.jumpTo tick mark).cursor ≤ later := by
  unfold jumpTo
  cases mark with
  | none => exact h
  | some m =>
    simp only
    split
    · exact htick
    · exact h

end Clock

/-- What a chord leaves out of its rest is less than the shortest rest, and it leaves out nothing
without a rest. -/
theorem Chord.leave_sub_lasting {t : LengthTables} (ht : t.Proper)
    (hrest : ∃ e ∈ t.rests.entries, t.minRest ≤ e.1) (c : Chord) :
    c.leave t - c.tick - c.lasting t < t.shortestRest ∧
      (c.rest? t = none → c.leave t - c.tick = c.lasting t) := by
  have hpos := ht.shortestRest_pos hrest
  unfold lasting
  cases hinside : c.rest? t with
  | none =>
    simp only [Option.isSome_none, Bool.false_eq_true, if_false]
    exact ⟨by omega, fun _ => trivial⟩
  | some length =>
    obtain ⟨_, _, hlt⟩ := leave_of_rest hinside
    simp only [Option.isSome_some, if_true]
    exact ⟨ht.sub_restTicks_lt hrest (by omega), fun h => by cases h⟩

/-! ### The invariant -/

/-- Every part is in time for what is due for it, no part is behind its text, and the drift of the
parts and of the marker to be used is bounded by the rests that were due. -/
structure InTime (t : LengthTables) (s : Score) (R : Reading) (start : Int) (rest : List Action) :
    Prop extends NotBehind s R start rest where
  ordered : rest.Pairwise (Action.Before t)
  within : ∀ c, .chord c ∈ rest → c.slice.beginTick ≤ c.tick
  due : ∀ id, ∀ b ∈ rest, ∀ tick, b.due? id.channel = some tick → (clock s R id).cursor ≤ tick
  drift : ∀ id, (clock s R id).drift ≤ s.tries * (t.shortestRest - 1)
  drift_mark : ∀ m, R.mark? s.slice = some m → start - m ≤ s.tries * (t.shortestRest - 1)

/-- More rests allow for more drift. -/
theorem drift_mono {t : LengthTables} (ht : t.Proper)
    (hrest : ∃ e ∈ t.rests.entries, t.minRest ≤ e.1) {tries tries' : Int} (h : tries ≤ tries') :
    tries * (t.shortestRest - 1) ≤ tries' * (t.shortestRest - 1) := by
  have hpos := ht.shortestRest_pos hrest
  exact Int.mul_le_mul_of_nonneg_right h (by omega)

namespace InTime

variable {p : Plan} {s s' : Score} {R R' : Reading} {start : Int} {rest : List Action}

/-- A part enters a chord at its onset, with a drift bounded by the rests that were due by then. -/
theorem entry {c : Chord} {id : PartId} {entered : Score}
    (h : InTime p.tables s R start (.chord c :: rest)) (hp : p.Proper)
    (hrest : ∃ e ∈ p.tables.rests.entries, p.tables.minRest ≤ e.1)
    (hpasses : Passes p.tables c id s R entered s' R') :
    (c.entry p.tables s R id).cursor = c.tick ∧
      (c.entry p.tables s R id).drift ≤ entered.tries * (p.tables.shortestRest - 1) := by
  have hbegin := h.within c List.mem_cons_self
  have hstart : c.slice.beginTick = start := h.inOrder.1
  have hdue : (clock s R id).cursor ≤ c.tick :=
    h.due id _ List.mem_cons_self c.tick (Action.due?_chord.mpr ⟨hpasses.channel.symm, rfl⟩)
  constructor
  · rw [Chord.entry, Clock.cursor_restTo]
    exact Int.max_eq_right (Clock.cursor_jumpTo_le hbegin hdue)
  · rw [hpasses.due]
    refine Clock.drift_restTo hp.tables hrest (Clock.drift_jumpTo (fun m hm => ?_) (h.drift id))
    rw [hstart]
    exact h.drift_mark m hm

/-- Steps that move nobody keep everybody in time. -/
theorem still {a : Action} (h : InTime p.tables s R start (a :: rest))
    (hinOrder : InOrder start rest) (hstill : Still s R s' R') :
    InTime p.tables s' R' start rest where
  toNotBehind := h.toNotBehind.still hinOrder hstill
  ordered := h.ordered.tail
  within c hc := h.within c (List.mem_cons_of_mem _ hc)
  due id b hb := by
    rw [hstill.clocks]
    exact h.due id b (List.mem_cons_of_mem _ hb)
  drift id := by
    rw [hstill.clocks, hstill.tries]
    exact h.drift id
  drift_mark m hm := by
    rw [hstill.marks, hstill.slice] at hm
    rw [hstill.tries]
    exact h.drift_mark m hm

/-- The begin of a slice keeps everybody in time. -/
theorem begins {slice : Slice} {number : Int} (hp : p.Proper)
    (hrest : ∃ e ∈ p.tables.rests.entries, p.tables.minRest ≤ e.1)
    (h : InTime p.tables s R start (.beginSlice slice number :: rest))
    (hbegins : Begins p.tables slice.beginTick number s R s' R') :
    InTime p.tables s' R' slice.beginTick rest := by
  obtain ⟨hbefore, hordered⟩ := List.pairwise_cons.mp h.ordered
  have hmono := drift_mono hp.tables hrest hbegins.tries
  have hdrift (id : PartId) :
      (clock s' R' id).drift ≤ s'.tries * (p.tables.shortestRest - 1) := by
    rcases hbegins.clocks id with hold | ⟨_, hlt, hrested, htries⟩
    · rw [hold]
      exact Int.le_trans (h.drift id) hmono
    · have hbound : ((clock s R id).restTo p.tables slice.beginTick).drift ≤ _ :=
        Clock.drift_restTo hp.tables hrest (h.drift id)
      rw [if_pos hlt, ← htries] at hbound
      rw [hrested]
      exact hbound
  refine ⟨h.toNotBehind.begins hp hbegins, hordered,
    fun c hc => h.within c (List.mem_cons_of_mem _ hc), fun id b hb tick hdue => ?_, hdrift,
    fun m hm => ?_⟩
  · have hold := h.due id b (List.mem_cons_of_mem _ hb) tick hdue
    have hbegin := hbefore b hb id.channel tick hdue
    rcases hbegins.clocks id with heq | ⟨_, _, hrested, _⟩
    · rw [heq]
      exact hold
    · rw [hrested, Clock.cursor_restTo]
      exact Int.max_le.mpr ⟨hold, hbegin⟩
  · rw [hbegins.slice] at hm
    rcases hbegins.marks number with hold | ⟨_, _, id, hcursor, hmark⟩
    · have hnone := h.fresh _ List.mem_cons_self number rfl
      rw [hold, hnone] at hm
      cases hm
    · rw [hmark] at hm
      cases hm
      rw [← hcursor]
      exact hdrift id

/-- A chord keeps everybody in time. -/
theorem passes {c : Chord} {id : PartId} {entered : Score} (hp : p.Proper)
    (hrest : ∃ e ∈ p.tables.rests.entries, p.tables.minRest ≤ e.1) (hc : c.Valid p.tables)
    (h : InTime p.tables s R start (.chord c :: rest))
    (hpasses : Passes p.tables c id s R entered s' R') :
    InTime p.tables s' R' start rest := by
  obtain ⟨hbefore, hordered⟩ := List.pairwise_cons.mp h.ordered
  obtain ⟨hcursor, hdrift⟩ := h.entry hp hrest hpasses
  obtain ⟨hleave, hlasting⟩ := hc.lasting_bounds hp.tables
  obtain ⟨hless, hnone⟩ := c.leave_sub_lasting hp.tables hrest
  have hbehind := h.toNotBehind.entry hp.tables id
  have hdue := hpasses.due
  have htries : s.tries ≤ s'.tries := by
    have := hpasses.tries
    split at hdue <;> omega
  have hmono := drift_mono hp.tables hrest htries
  have hleft := hpasses.left
  rw [hcursor, Int.max_eq_right (Int.le_of_lt hleave)] at hleft
  refine ⟨h.toNotBehind.passes hpasses ?_, hordered,
    fun c hc => h.within c (List.mem_cons_of_mem _ hc), fun id' b hb tick hdue => ?_,
    fun id' => ?_, fun m hm => ?_⟩
  · rw [hcursor] at hbehind ⊢
    omega
  · by_cases heq : id' = id
    · rw [heq] at hdue ⊢
      rw [hpasses.channel] at hdue
      rw [hleft]
      exact hbefore b hb tick hdue
    · rw [hpasses.others id' heq]
      exact h.due id' b (List.mem_cons_of_mem _ hb) tick hdue
  · by_cases heq : id' = id
    · rw [heq, hleft]
      unfold Clock.drift at hdrift ⊢
      rw [hcursor] at hdrift
      simp only
      cases hinside : c.rest? p.tables with
      | none =>
        have hsame := hnone hinside
        have hmono' := drift_mono hp.tables hrest hpasses.tries
        omega
      | some length =>
        have hone := hpasses.rested (by simp [hinside])
        rw [hone, Int.add_mul, Int.one_mul]
        omega
    · rw [hpasses.others id' heq]
      exact Int.le_trans (h.drift id') hmono
  · rw [hpasses.marks, hpasses.slice] at hm
    exact Int.le_trans (h.drift_mark m hm) hmono

end InTime

/-! ### The bound -/

/-- Everybody is in time at every point of a transcription of a spaced recording. -/
theorem Recording.Spaced.inTime {p : Plan} (hp : p.Proper) {slices : List Slice}
    (hslices : p.recording.HasSlices slices)
    (hspaced : p.recording.Spaced p.tables.shortestRest)
    (hrest : ∃ e ∈ p.tables.rests.entries, p.tables.minRest ≤ e.1) {before after : List Action}
    (hsplit : p.actions slices = before ++ after) :
    ∃ s R, Writes (before.forM (Action.write p)) {} () s ∧ Agrees p.tables s R ∧
      ∃ start, InTime p.tables s R start after := by
  have hvalid := Plan.valid_actions hp hslices
  have hzero : (0 : Int) ≤ (({} : Score).tries) * (p.tables.shortestRest - 1) := by
    simp [Score.tries]
  have hstart : ∃ start, InTime p.tables {} {} start (p.actions slices) := by
    refine ⟨0, p.notBehind_start slices, Plan.pairwise_actions hp hslices hspaced hrest, ?_, ?_, ?_,
      fun m hm => absurd hm (by simp [Reading.mark?])⟩
    · intro c hc
      exact (Plan.due_of_mem hp hslices hspaced hc).2 c rfl
    · intro id b hb tick hdue
      exact (Plan.due_of_mem hp hslices hspaced hb).1 _ tick hdue
    · intro id
      exact hzero
  refine @Agrees.run p hp _ hvalid (fun s R rest => ∃ start, InTime p.tables s R start rest) hstart
    ?_ _ _ hsplit
  rintro before a rest s R s' R' hsplit - ⟨start, hinv⟩ - - heffect
  cases a with
  | beginSlice slice number => exact ⟨_, hinv.begins hp hrest heffect⟩
  | globals slice => exact ⟨start, hinv.still hinv.inOrder heffect⟩
  | blank => exact ⟨start, hinv.still hinv.inOrder heffect⟩
  | change channel tick => exact ⟨start, hinv.still hinv.inOrder heffect⟩
  | chord c =>
    obtain ⟨id, jump, gap, entered, henter, hpasses⟩ := heffect
    have hc : c.Valid p.tables := hvalid (.chord c) (by rw [hsplit]; simp)
    exact ⟨start, hinv.passes hp hrest hc hpasses⟩

/-- **Bounded drift.** In a spaced recording no chord starts after its onset in the text, and none
starts earlier than by the rests that were due up to then, each of them counted with one tick less
than the shortest rest. -/
theorem Recording.drift_bounded {document : Json} {r : Recording}
    (hdocument : Recording.ofDocument document = .ok r) (settings : Settings)
    (hrest : ∃ e ∈ (Plan.of r settings).tables.rests.entries,
      (Plan.of r settings).tables.minRest ≤ e.1)
    (hspaced : r.Spaced (Plan.of r settings).tables.shortestRest) :
    let p := Plan.of r settings
    ∃ slices s, r.slices = .ok slices ∧ p.score slices = .ok s ∧
      ∀ before c after, p.actions slices = before ++ .chord c :: after →
        ∃ play, p.Plays before c play ∧ 0 ≤ c.tick - play.start ∧
          c.tick - play.start ≤ play.tries * (p.tables.shortestRest - 1) := by
  intro p
  have hwellFormed := Recording.ofDocument_wellFormed hdocument
  have hp : p.Proper := Plan.proper_of hwellFormed settings
  obtain ⟨slices, hslices, hhas⟩ := Recording.exists_slices hwellFormed
  obtain ⟨s, _, hwrite, _⟩ := Plan.exists_agrees hp hhas (List.append_nil _).symm
  refine ⟨slices, s, hslices, Plan.score_eq_ok.mpr hwrite, ?_⟩
  intro before c after hsplit
  obtain ⟨s, R, hbefore, hagrees, start, hinv⟩ := hspaced.inTime hp hhas hrest hsplit
  obtain ⟨id, entered, s', R', -, -, hpasses, hplays⟩ :=
    Plan.exists_passes hp hhas hsplit hbefore hagrees
  refine ⟨_, (hplays _).mpr rfl, ?_⟩
  obtain ⟨hcursor, hdrift⟩ := hinv.entry hp hrest hpasses
  have hbehind := hinv.toNotBehind.entry hp.tables id
  unfold Clock.drift at hdrift
  rw [hcursor] at hdrift hbehind
  exact ⟨by simp only; omega, hdrift⟩

/-- The drift is bounded in a sequence with a gap of one tick between two notes, and with a second
channel and a second slice. -/
theorem Recording.drift_bounded_gap :
    ∃ r slices s,
      Recording.ofDocument (.ofSequence
        [("0", [(0, 60, 480), (481, 64, 480), (961, 65, 480)]), ("1", [(3, 48, 240)])]
        [(961, 90)]) = .ok r ∧
      r.slices = .ok slices ∧ (Plan.of r {}).score slices = .ok s ∧
      ∀ before c after, (Plan.of r {}).actions slices = before ++ .chord c :: after →
        ∃ play, (Plan.of r {}).Plays before c play ∧ 0 ≤ c.tick - play.start ∧
          c.tick - play.start ≤ play.tries * ((Plan.of r {}).tables.shortestRest - 1) := by
  obtain ⟨r, hdocument, hr⟩ := exists_eq_ok (show (Recording.ofDocument (.ofSequence
    [("0", [(0, 60, 480), (481, 64, 480), (961, 65, 480)]), ("1", [(3, 48, 240)])]
    [(961, 90)])).toOption.any (fun r =>
      decide ((∃ e ∈ (Plan.of r {}).tables.rests.entries, (Plan.of r {}).tables.minRest ≤ e.1) ∧
        r.Spaced (Plan.of r {}).tables.shortestRest)) = true by decide +kernel)
  obtain ⟨hrest, hspaced⟩ := of_decide_eq_true hr
  obtain ⟨slices, s, hslices, hscore, hall⟩ := Recording.drift_bounded hdocument {} hrest hspaced
  exact ⟨r, slices, s, hdocument, hslices, hscore, hall⟩

/-- No part of a spaced recording falls behind its own text. -/
theorem Recording.Spaced.cursors_notBehind {p : Plan} (hp : p.Proper) {slices : List Slice}
    (hslices : p.recording.HasSlices slices)
    (hspaced : p.recording.Spaced p.tables.shortestRest)
    (hrest : ∃ e ∈ p.tables.rests.entries, p.tables.minRest ≤ e.1) {steps : List Action}
    (hsteps : steps <+: p.actions slices) {s : Score} {R : Reading} (hreads : p.Reads steps s R)
    (id : PartId) : (R.voice id).position ≤ (s.part id).cursor := by
  obtain ⟨rest, hsplit⟩ := hsteps
  obtain ⟨s', R', hwrite, hagrees, start, hinv⟩ := hspaced.inTime hp hslices hrest hsplit.symm
  obtain ⟨rfl, rfl⟩ := hreads.unique ⟨hwrite, hagrees.ofTexts?⟩
  exact hinv.clocks id

end Transcription
