import Transcription.Proofs.Recording.Presses

/-!
# Marks

A recording is made of single marks: a note struck or released, a program chosen, a command given.
What matters of a list of marks is which marks it has and not their order, as long as no two of them
give different values to one thing. A note that is released where it is struck stays pressed there,
whichever of the two marks comes first.
-/

namespace Transcription.Recording

variable {r : Recording}

/-- A single mark in a recording. -/
inductive Mark where
  /-- A note is struck. -/
  | strike (channel tick note velocity : Int)
  /-- A note is released. -/
  | release (channel tick note : Int)
  /-- A program is chosen. -/
  | program (channel tick number : Int)
  /-- A global command is given. -/
  | command (tick : Int) (name value : String)
  deriving DecidableEq

/-- Make a mark. -/
def mark (r : Recording) : Mark → Recording
  | .strike channel tick note velocity => r.strike channel tick note velocity
  | .release channel tick note => r.release channel tick note
  | .program channel tick number => r.addProgram channel tick number
  | .command tick name value => r.setCommand tick name value

/-- Make one mark after the other. -/
def markAll (r : Recording) (marks : List Mark) : Recording := marks.foldl mark r

/-! ### The tables of a mark -/

/-- Put a note among those struck at a tick. -/
def strikeIn (tick note velocity : Int) (strikes : Strikes) : Strikes :=
  strikes.alterIn tick (fun notes => notes.insert note velocity)

/-- Mark a tick in the presses of a pitch. Where the pitch is pressed already it stays so. -/
def pressAt (tick : Int) (pressed : Bool) (presses : Presses) : Presses :=
  presses.insert tick ((presses.get? tick).getD false || pressed)

/-- Mark a tick in the presses of one of the pitches of a channel. -/
def pressIn (tick note : Int) (pressed : Bool) (byNote : Table Int Presses) : Table Int Presses :=
  byNote.alterIn note (pressAt tick pressed)

namespace Mark

/-- What a mark does to the strikes. -/
def onStrikes : Mark → Table Int Strikes → Table Int Strikes
  | strike channel tick note velocity, t => t.alterIn channel (strikeIn tick note velocity)
  | release .., t | program .., t | command .., t => t

/-- What a mark does to the presses. -/
def onPresses : Mark → Table Int (Table Int Presses) → Table Int (Table Int Presses)
  | strike channel tick note _, t => t.alterIn channel (pressIn tick note true)
  | release channel tick note, t => t.alterIn channel (pressIn tick note false)
  | program .., t | command .., t => t

/-- What a mark does to the programs. -/
def onPrograms : Mark → Table Int (Table Int Int) → Table Int (Table Int Int)
  | program channel tick number, t =>
    t.alterIn channel (fun programs => programs.insert tick number)
  | strike .., t | release .., t | command .., t => t

/-- What a mark does to the global commands. -/
def onGlobals : Mark → Table Int (Table String String) → Table Int (Table String String)
  | command tick name value, t => t.alterIn tick (fun commands => commands.insert name value)
  | strike .., t | release .., t | program .., t => t

end Mark

/-- A press marks its tick as pressed, whatever was there. -/
theorem pressAt_true (tick : Int) (presses : Presses) :
    pressAt tick true presses = presses.insert tick true := by
  rw [pressAt, Bool.or_true]

/-- A release marks its tick as released, unless the pitch is pressed there. -/
theorem pressAt_false (tick : Int) (presses : Presses) :
    pressAt tick false presses =
      if presses.get? tick = some true then presses else presses.insert tick false := by
  split
  · rename_i hpressed
    rw [pressAt, hpressed]
    exact Table.insert_eq_self hpressed
  · rename_i hnot
    have hreleased : (presses.get? tick).getD false = false := by
      cases hget : presses.get? tick with
      | none => rfl
      | some pressed =>
        cases pressed with
        | false => rfl
        | true => exact absurd hget hnot
    rw [pressAt, hreleased, Bool.or_false]

/-- A pitch that is pressed or released at a tick has presses, and so has its channel. -/
theorem exists_presses {channel note tick : Int} {pressed : Bool}
    (h : (r.pressesOf channel note).get? tick = some pressed) :
    ∃ byNote, r.presses.get? channel = some byNote ∧
      byNote.get? note = some (r.pressesOf channel note) := by
  unfold pressesOf at h ⊢
  cases hchannel : r.presses.get? channel with
  | none => simp [hchannel] at h
  | some byNote =>
    cases hnote : byNote.get? note with
    | none => simp [hchannel, hnote] at h
    | some presses => exact ⟨byNote, rfl, by simp [hnote]⟩

/-- Every table of a recording is marked for itself. -/
theorem mark_eq (r : Recording) (m : Mark) :
    r.mark m =
      { r with
        strikes := m.onStrikes r.strikes
        presses := m.onPresses r.presses
        programs := m.onPrograms r.programs
        globals := m.onGlobals r.globals } := by
  cases m with
  | strike channel tick note velocity =>
    simp only [Mark.onPresses, pressIn, Table.alterIn, pressAt_true]
    rfl
  | release channel tick note =>
    have hpress := pressAt_false tick (r.pressesOf channel note)
    simp only [mark, release]
    split
    · -- the release is in vain, and to mark the press again changes nothing either
      rename_i hpressed
      rw [if_pos hpressed] at hpress
      obtain ⟨byNote, hchannel, hnote⟩ := exists_presses hpressed
      have hsame : (Mark.release channel tick note).onPresses r.presses = r.presses :=
        Table.alterIn_eq_self hchannel (Table.alterIn_eq_self hnote hpress)
      rw [hsame]
      rfl
    · rename_i hnot
      rw [if_neg hnot] at hpress
      rw [← hpress]
      rfl
  | program channel tick number => rfl
  | command tick name value => rfl

/-- Every table of a recording takes all marks for itself. -/
theorem markAll_eq (r : Recording) (marks : List Mark) :
    r.markAll marks =
      { r with
        strikes := marks.foldl (fun t m => m.onStrikes t) r.strikes
        presses := marks.foldl (fun t m => m.onPresses t) r.presses
        programs := marks.foldl (fun t m => m.onPrograms t) r.programs
        globals := marks.foldl (fun t m => m.onGlobals t) r.globals } := by
  unfold markAll
  induction marks generalizing r with
  | nil => rfl
  | cons m marks ih => rw [List.foldl_cons, ih, mark_eq]; rfl

/-! ### The order of marks -/

/-- Two notes may be struck in either order, unless they are one note with two velocities. -/
theorem strikeIn_comm {tick tick' note note' velocity velocity' : Int}
    (h : tick = tick' → note = note' → velocity = velocity') (strikes : Strikes) :
    strikeIn tick' note' velocity' (strikeIn tick note velocity strikes) =
      strikeIn tick note velocity (strikeIn tick' note' velocity' strikes) :=
  Table.alterIn_comm (fun htick => Table.insert_comm (h htick)) strikes

/-- Two ticks of a pitch may be marked in either order. -/
theorem pressAt_comm (tick tick' : Int) (pressed pressed' : Bool) (presses : Presses) :
    pressAt tick' pressed' (pressAt tick pressed presses) =
      pressAt tick pressed (pressAt tick' pressed' presses) := by
  unfold pressAt
  by_cases htick : tick = tick'
  · subst htick
    refine Table.ext_get? (fun tick₂ => ?_)
    simp only [Table.get?_insert, if_pos, Option.getD_some]
    rw [Bool.or_right_comm]
    split
    · rfl
    · rfl
  · simp only [Table.get?_insert, if_neg htick, if_neg (Ne.symm htick)]
    exact Table.insert_comm (fun heq => absurd heq htick) presses

/-- Ticks of the pitches of a channel may be marked in either order. -/
theorem pressIn_comm (tick tick' note note' : Int) (pressed pressed' : Bool)
    (byNote : Table Int Presses) :
    pressIn tick' note' pressed' (pressIn tick note pressed byNote) =
      pressIn tick note pressed (pressIn tick' note' pressed' byNote) :=
  Table.alterIn_comm (fun _ => pressAt_comm tick tick' pressed pressed') byNote

namespace Mark

/-- Two marks agree unless they give different values to one note, one program or one command. -/
def Agrees : Mark → Mark → Prop
  | strike channel tick note velocity, strike channel' tick' note' velocity' =>
    channel = channel' → tick = tick' → note = note' → velocity = velocity'
  | program channel tick number, program channel' tick' number' =>
    channel = channel' → tick = tick' → number = number'
  | command tick name value, command tick' name' value' =>
    tick = tick' → name = name' → value = value'
  | _, _ => True

variable {a b : Mark}

/-- The strikes of marks that agree do not depend on their order. -/
theorem onStrikes_comm (h : a.Agrees b) (t : Table Int Strikes) :
    b.onStrikes (a.onStrikes t) = a.onStrikes (b.onStrikes t) := by
  cases a with
  | strike =>
    cases b with
    | strike =>
      simp only [onStrikes]
      exact Table.alterIn_comm (fun hchannel => strikeIn_comm (h hchannel)) t
    | _ => rfl
  | _ => rfl

/-- The presses of marks do not depend on their order. -/
theorem onPresses_comm (a b : Mark) (t : Table Int (Table Int Presses)) :
    b.onPresses (a.onPresses t) = a.onPresses (b.onPresses t) := by
  cases a with
  | strike | release =>
    cases b with
    | strike | release =>
      simp only [onPresses]
      exact Table.alterIn_comm (fun _ => pressIn_comm _ _ _ _ _ _) t
    | _ => rfl
  | _ => rfl

/-- The programs of marks that agree do not depend on their order. -/
theorem onPrograms_comm (h : a.Agrees b) (t : Table Int (Table Int Int)) :
    b.onPrograms (a.onPrograms t) = a.onPrograms (b.onPrograms t) := by
  cases a with
  | program =>
    cases b with
    | program =>
      simp only [onPrograms]
      exact Table.alterIn_comm (fun hchannel => Table.insert_comm (h hchannel)) t
    | _ => rfl
  | _ => rfl

/-- The commands of marks that agree do not depend on their order. -/
theorem onGlobals_comm (h : a.Agrees b) (t : Table Int (Table String String)) :
    b.onGlobals (a.onGlobals t) = a.onGlobals (b.onGlobals t) := by
  cases a with
  | command =>
    cases b with
    | command =>
      simp only [onGlobals]
      exact Table.alterIn_comm (fun htick => Table.insert_comm (h htick)) t
    | _ => rfl
  | _ => rfl

end Mark

/-- Two marks that agree may be made in either order. -/
theorem mark_comm {a b : Mark} (h : a.Agrees b) (r : Recording) :
    (r.mark a).mark b = (r.mark b).mark a := by
  simp only [mark_eq, Mark.onStrikes_comm h, Mark.onPresses_comm a b, Mark.onPrograms_comm h,
    Mark.onGlobals_comm h]

/-- The order of marks does not matter if all of them agree. -/
theorem markAll_perm {marks marks' : List Mark} (hperm : marks.Perm marks')
    (hagree : ∀ a ∈ marks, ∀ b ∈ marks, a.Agrees b) (r : Recording) :
    r.markAll marks = r.markAll marks' :=
  hperm.foldl_eq' (fun a ha b hb r => mark_comm (hagree a ha b hb) r) r

/-! ### What marks leave -/

/-- What a mark says of a pitch at a tick: whether it is pressed, if the mark is about it. -/
def Mark.pressed? (channel note tick : Int) : Mark → Option Bool
  | strike channel' tick' note' _ =>
    if channel' = channel ∧ note' = note ∧ tick' = tick then some true else none
  | release channel' tick' note' =>
    if channel' = channel ∧ note' = note ∧ tick' = tick then some false else none
  | program .. | command .. => none

/-- The presses of a pitch after a tick of some pitch is marked. -/
theorem get?_alterIn_pressIn (r : Recording) (channel note tick channel' note' tick' : Int)
    (pressed : Bool) :
    ((((r.presses.alterIn channel' (pressIn tick' note' pressed)).get? channel).getD .empty).get?
      note |>.getD .empty).get? tick =
      if channel' = channel ∧ note' = note ∧ tick' = tick then
        some (((r.pressesOf channel note).get? tick).getD false || pressed)
      else (r.pressesOf channel note).get? tick := by
  rw [Table.getD_alterIn]
  by_cases hchannel : channel' = channel
  · subst hchannel
    rw [if_pos rfl, pressIn, Table.getD_alterIn]
    by_cases hnote : note' = note
    · subst hnote
      rw [if_pos rfl, pressAt, Table.get?_insert]
      by_cases htick : tick' = tick
      · subst htick
        rw [if_pos rfl, if_pos ⟨rfl, rfl, rfl⟩]
        rfl
      · simp only [htick, and_false, if_false]
        rfl
    · simp only [hnote, false_and, and_false, if_false]
      rfl
  · simp only [hchannel, false_and, if_false]
    rfl

/-- A mark about a pitch at a tick is put there, unless the pitch is pressed already. -/
theorem get?_pressesOf_mark (r : Recording) (m : Mark) (channel note tick : Int) :
    ((r.mark m).pressesOf channel note).get? tick =
      match m.pressed? channel note tick with
      | none => (r.pressesOf channel note).get? tick
      | some pressed => some (((r.pressesOf channel note).get? tick).getD false || pressed) := by
  rw [mark_eq]
  cases m with
  | strike channel' tick' note' velocity =>
    refine (get?_alterIn_pressIn r channel note tick channel' note' tick' true).trans ?_
    simp only [Mark.pressed?]
    split
    · rfl
    · rfl
  | release channel' tick' note' =>
    refine (get?_alterIn_pressIn r channel note tick channel' note' tick' false).trans ?_
    simp only [Mark.pressed?]
    split
    · rfl
    · rfl
  | program | command => rfl

/-- A pitch is pressed at a tick after all marks if one of them presses it, or it was so before. -/
theorem pressed_markAll (r : Recording) (marks : List Mark) (channel note tick : Int) :
    ((r.markAll marks).pressesOf channel note).get? tick = some true ↔
      (∃ m ∈ marks, m.pressed? channel note tick = some true) ∨
        (r.pressesOf channel note).get? tick = some true := by
  unfold markAll
  induction marks generalizing r with
  | nil => simp
  | cons m marks ih =>
    rw [List.foldl_cons, ih, get?_pressesOf_mark]
    cases hm : m.pressed? channel note tick with
    | none => simp [hm]
    | some pressed =>
      cases pressed with
      | true => simp [hm]
      | false =>
        cases hget : (r.pressesOf channel note).get? tick with
        | none => simp [hm]
        | some before => simp [hm]

/-- Something is known of a pitch at a tick after all marks if one of them is about it, or it was
known before. -/
theorem isSome_markAll (r : Recording) (marks : List Mark) (channel note tick : Int) :
    (((r.markAll marks).pressesOf channel note).get? tick).isSome = true ↔
      (∃ m ∈ marks, (m.pressed? channel note tick).isSome = true) ∨
        ((r.pressesOf channel note).get? tick).isSome = true := by
  unfold markAll
  induction marks generalizing r with
  | nil => simp
  | cons m marks ih =>
    rw [List.foldl_cons, ih, get?_pressesOf_mark]
    cases hm : m.pressed? channel note tick with
    | none => simp [hm]
    | some pressed => simp [hm]

/-! ### The ticks of marks -/

/-- The tick of a mark. -/
def Mark.tick : Mark → Int
  | strike _ tick _ _ | release _ tick _ | program _ tick _ | command tick _ _ => tick

/-- A mark adds its tick to those of the strikes of a channel. -/
theorem mem_keys_strikeIn (tick note velocity tick' : Int) (strikes : Strikes) :
    tick' ∈ (strikeIn tick note velocity strikes).keys ↔ tick' = tick ∨ tick' ∈ strikes.keys :=
  Table.mem_keys_insert

/-- All ticks at which a pitch of a channel is pressed or released. -/
def pressTicks (byNote : Table Int Presses) : List Int := byNote.values.flatMap Table.keys

/-- A mark adds its tick to those of the presses of a channel. -/
theorem mem_pressTicks_pressIn (tick note : Int) (pressed : Bool) (tick' : Int)
    (byNote : Table Int Presses) :
    tick' ∈ pressTicks (pressIn tick note pressed byNote) ↔
      tick' = tick ∨ tick' ∈ pressTicks byNote :=
  Table.mem_flatMap_alterIn List.not_mem_nil (fun _ => Table.mem_keys_insert) byNote

/-- A mark adds its tick. -/
theorem mem_ticks_mark (r : Recording) (m : Mark) (tick : Int) :
    tick ∈ (r.mark m).ticks ↔ tick = m.tick ∨ tick ∈ r.ticks := by
  have hpresses (channel tick' note : Int) (pressed : Bool) :
      tick ∈ (r.presses.alterIn channel (pressIn tick' note pressed)).values.flatMap pressTicks ↔
        tick = tick' ∨ tick ∈ r.presses.values.flatMap pressTicks :=
    Table.mem_flatMap_alterIn List.not_mem_nil (mem_pressTicks_pressIn tick' note pressed tick) _
  unfold pressTicks at hpresses
  rw [mark_eq]
  simp only [ticks, List.mem_append]
  cases m with
  | strike channel tick' note velocity =>
    have hstrikes : tick ∈ (r.strikes.alterIn channel (strikeIn tick' note velocity)).values.flatMap
        Table.keys ↔ tick = tick' ∨ tick ∈ r.strikes.values.flatMap Table.keys :=
      Table.mem_flatMap_alterIn List.not_mem_nil (mem_keys_strikeIn tick' note velocity tick) _
    simp only [Mark.onStrikes, Mark.onPresses, Mark.onPrograms, Mark.onGlobals, Mark.tick, hstrikes,
      hpresses]
    rw [or_or_or_comm, or_self]
    simp only [or_assoc]
  | release channel tick' note =>
    simp only [Mark.onStrikes, Mark.onPresses, Mark.onPrograms, Mark.onGlobals, Mark.tick, hpresses]
    rw [or_left_comm]
    simp only [or_assoc]
  | program channel tick' number =>
    have hprograms : tick ∈ (r.programs.alterIn channel
        (fun programs => programs.insert tick' number)).values.flatMap Table.keys ↔
          tick = tick' ∨ tick ∈ r.programs.values.flatMap Table.keys :=
      Table.mem_flatMap_alterIn List.not_mem_nil (fun _ => Table.mem_keys_insert) _
    simp only [Mark.onStrikes, Mark.onPresses, Mark.onPrograms, Mark.onGlobals, Mark.tick,
      hprograms]
    rw [or_left_comm, or_assoc]
  | command tick' name value =>
    have hglobals : tick ∈ (r.globals.alterIn tick'
        (fun commands => commands.insert name value)).keys ↔ tick = tick' ∨ tick ∈ r.globals.keys :=
      Table.mem_keys_insert
    simp only [Mark.onStrikes, Mark.onPresses, Mark.onPrograms, Mark.onGlobals, Mark.tick, hglobals]
    rw [or_left_comm]

/-- The ticks after all marks are theirs and those before. -/
theorem mem_ticks_markAll (r : Recording) (marks : List Mark) (tick : Int) :
    tick ∈ (r.markAll marks).ticks ↔ (∃ m ∈ marks, m.tick = tick) ∨ tick ∈ r.ticks := by
  unfold markAll
  induction marks generalizing r with
  | nil => simp
  | cons m marks ih =>
    rw [List.foldl_cons, ih, mem_ticks_mark, List.exists_mem_cons_iff, or_left_comm, or_assoc,
      eq_comm (a := tick)]

/-! ### The last tick -/

/-- The ticks at which notes of a channel are struck are recorded. -/
theorem mem_ticks_of_strikesOn {channel tick : Int} (h : tick ∈ (r.strikesOn channel).keys) :
    tick ∈ r.ticks := by
  simp only [ticks, List.mem_append]
  exact Or.inl (Or.inl (Or.inl (Table.mem_flatMap_keys h)))

/-- The ticks at which programs of a channel are chosen are recorded. -/
theorem mem_ticks_of_programsOn {channel tick : Int} (h : tick ∈ (r.programsOn channel).keys) :
    tick ∈ r.ticks := by
  simp only [ticks, List.mem_append]
  exact Or.inl (Or.inr (Table.mem_flatMap_keys h))

/-- The largest of some numbers is bounded as all of them are. -/
theorem foldl_max_le_iff {l : List Int} {start bound : Int} :
    l.foldl max start ≤ bound ↔ start ≤ bound ∧ ∀ n ∈ l, n ≤ bound := by
  induction l generalizing start with
  | nil => simp
  | cons n l ih =>
    rw [List.foldl_cons, ih, Int.max_le, List.forall_mem_cons, and_assoc]

/-- The largest of some numbers depends only on which numbers they are. -/
theorem foldl_max_congr {l l' : List Int} (h : ∀ n, n ∈ l ↔ n ∈ l') (start : Int) :
    l.foldl max start = l'.foldl max start := by
  have hle {l l' : List Int} (hsub : ∀ n ∈ l, n ∈ l') : l.foldl max start ≤ l'.foldl max start := by
    obtain ⟨hstart, hall⟩ := foldl_max_le_iff.mp (Int.le_refl (l'.foldl max start))
    exact foldl_max_le_iff.mpr ⟨hstart, fun n hn => hall n (hsub n hn)⟩
  exact Int.le_antisymm (hle (fun n => (h n).mp)) (hle (fun n => (h n).mpr))

/-- Without a declared end a recording ends after everything that is recorded. -/
theorem lt_lastTick (hend : r.endTick = none) {tick : Int} (htick : tick ∈ r.ticks) :
    tick < r.lastTick := by
  have hle : tick ≤ r.ticks.foldl max 0 :=
    (foldl_max_le_iff.mp (Int.le_refl (r.ticks.foldl max 0))).2 tick htick
  rw [lastTick, hend, Option.getD_none]
  omega

end Transcription.Recording
