import Transcription.Proofs.Recording.Entries

/-!
# What a recording keeps of a document

A recording that is read from a document has all its numbers in their ranges, and it keeps the
entries of the document: for every note, program and command it holds the value of the last entry
that gives one, and nothing else. Every note that is struck is released later.
-/

namespace Transcription

namespace Recording

variable {r : Recording} {added : List Addition}

/-! ### Numbers in their ranges -/

/-- A channel that has a lane. -/
def IsLane (channel : Int) : Prop := 0 ≤ channel ∧ channel ≤ 15

/-- A pitch that has a name. -/
def IsPitch (pitch : Int) : Prop := 0 ≤ pitch ∧ pitch ≤ 127

/-- A velocity with which a note is struck. -/
def IsVelocity (velocity : Int) : Prop := 1 ≤ velocity ∧ velocity ≤ 127

/-- A program that has an instrument. -/
def IsProgram (number : Int) : Prop := 0 ≤ number ∧ number ≤ 127

/-- A name of global commands. -/
def IsCommand (name : String) : Prop := name = tempoCommand ∨ name = keyCommand

/-- A recording all of whose numbers are in their ranges, and which stores no table without
entries. -/
structure InRange (r : Recording) : Prop where
  resolution : 1 ≤ r.resolution ∧ r.resolution ≤ 65535
  endTick : ∀ n ∈ r.endTick, 1 ≤ n
  strikes : r.strikes.All (fun channel strikes => IsLane channel ∧
    strikes.Filled (fun tick notes => 0 ≤ tick ∧
      notes.Filled (fun pitch velocity => IsPitch pitch ∧ IsVelocity velocity)))
  presses : r.presses.All (fun channel byNote => IsLane channel ∧
    byNote.Filled (fun pitch presses => IsPitch pitch ∧ presses.Filled (fun tick _ => 0 ≤ tick)))
  programs : r.programs.All (fun channel programs => IsLane channel ∧
    programs.Filled (fun tick number => 0 ≤ tick ∧ IsProgram number))
  globals : r.globals.All (fun tick commands => 0 ≤ tick ∧
    commands.Filled (fun name _ => IsCommand name))

/-- An addition with its numbers in their ranges. -/
def Addition.InRange : Addition → Prop
  | note channel tick pitch velocity length =>
    IsLane channel ∧ 0 ≤ tick ∧ IsPitch pitch ∧ IsVelocity velocity ∧ 1 ≤ length
  | program channel tick number => IsLane channel ∧ 0 ≤ tick ∧ IsProgram number
  | command tick name _ => 0 ≤ tick ∧ IsCommand name

/-- A mark with its numbers in their ranges. -/
def Mark.InRange : Mark → Prop
  | strike channel tick pitch velocity =>
    IsLane channel ∧ 0 ≤ tick ∧ IsPitch pitch ∧ IsVelocity velocity
  | release channel tick pitch => IsLane channel ∧ 0 ≤ tick ∧ IsPitch pitch
  | program channel tick number => IsLane channel ∧ 0 ≤ tick ∧ IsProgram number
  | command tick name _ => 0 ≤ tick ∧ IsCommand name

/-- The marks of an addition in range are in range. -/
theorem Addition.InRange.marks {a : Addition} (ha : a.InRange) : ∀ m ∈ a.marks, m.InRange := by
  intro m hm
  cases a with
  | note channel tick pitch velocity length =>
    obtain ⟨hlane, htick, hpitch, hvelocity, hlength⟩ := ha
    simp only [Addition.marks, List.mem_cons, List.not_mem_nil, or_false] at hm
    rcases hm with rfl | rfl
    · exact ⟨hlane, htick, hpitch, hvelocity⟩
    · exact ⟨hlane, by omega, hpitch⟩
  | program channel tick number =>
    rw [List.mem_singleton.mp hm]
    exact ha
  | command tick name value =>
    rw [of_mem_marks_command hm]
    exact ha

/-- A mark in range keeps a recording in range. -/
theorem InRange.mark (h : r.InRange) {m : Mark} (hm : m.InRange) : (r.mark m).InRange := by
  have hpress {channel tick pitch : Int} (pressed : Bool) (hlane : IsLane channel)
      (htick : 0 ≤ tick) (hpitch : IsPitch pitch) :=
    (h.presses.alterIn hlane (fun byNote hnote => hnote.alterIn (f := pressAt tick pressed) hpitch
      (fun presses hpresses => hpresses.insert htick))).2
  rw [mark_eq]
  constructor
  case resolution => exact h.resolution
  case endTick => exact h.endTick
  case strikes =>
    cases m with
    | strike channel tick pitch velocity =>
      obtain ⟨hlane, htick, hpitch, hvelocity⟩ := hm
      exact (h.strikes.alterIn hlane (fun strikes hstrikes => hstrikes.alterIn htick
        (fun notes hnotes => hnotes.insert ⟨hpitch, hvelocity⟩))).2
    | _ => exact h.strikes
  case presses =>
    cases m with
    | strike channel tick pitch velocity => exact hpress true hm.1 hm.2.1 hm.2.2.1
    | release channel tick pitch => exact hpress false hm.1 hm.2.1 hm.2.2
    | _ => exact h.presses
  case programs =>
    cases m with
    | program channel tick number =>
      exact (h.programs.alterIn hm.1 (fun programs hprograms => hprograms.insert hm.2)).2
    | _ => exact h.programs
  case globals =>
    cases m with
    | command tick name value =>
      exact (h.globals.alterIn hm.1 (fun commands hcommands => hcommands.insert hm.2)).2
    | _ => exact h.globals

/-- Marks in range keep a recording in range. -/
theorem InRange.markAll (h : r.InRange) {marks : List Mark} (hmarks : ∀ m ∈ marks, m.InRange) :
    (r.markAll marks).InRange := by
  induction marks generalizing r with
  | nil => exact h
  | cons m marks ih =>
    exact ih (h.mark (hmarks m List.mem_cons_self))
      (fun m' hm' => hmarks m' (List.mem_cons_of_mem _ hm'))

/-- Additions in range keep a recording in range. -/
theorem InRange.addAll (h : r.InRange) (hadded : ∀ a ∈ added, a.InRange) :
    (r.addAll added).InRange := by
  rw [addAll_eq_markAll]
  refine h.markAll (fun m hm => ?_)
  obtain ⟨a, ha, hm⟩ := List.mem_flatMap.mp hm
  exact (hadded a ha).marks m hm

/-! ### Entries in their ranges -/

/-- What holds of all that every item gives holds of all that is given. -/
theorem forall_mem_flatten_of_gives {α : Type} {gives : α → List Addition → Prop}
    {P : Addition → Prop} {items : List α} {given : List (List Addition)}
    (hall : List.Forall₂ gives items given)
    (hgives : ∀ item added, gives item added → ∀ a ∈ added, P a) : ∀ a ∈ given.flatten, P a := by
  induction hall with
  | nil => exact fun a ha => absurd ha List.not_mem_nil
  | cons hitem _ ih =>
    intro a ha
    rw [List.flatten_cons] at ha
    rcases List.mem_append.mp ha with hfirst | hrest
    · exact hgives _ _ hitem a hfirst
    · exact ih a hrest

/-- An addition in range whose ticks are not beyond those of a document. -/
structure Addition.Given (a : Addition) : Prop where
  inRange : a.InRange
  ticks : ∀ m ∈ a.marks, m.tick ≤ 2 * maxTick

/-- A note that is given starts in range, and it ends after one more length. -/
theorem GivesNote.given {channel : Int} (hlane : IsLane channel) {item : Json}
    (h : GivesNote channel item added) : ∀ a ∈ added, a.Given := by
  obtain ⟨members, tick, pitch, velocity, length, -, htick, hpitch, hvelocity, hlength, rfl⟩ := h
  intro a ha
  rw [List.mem_singleton.mp ha]
  have hstruck : IsVelocity velocity := by
    rcases hvelocity with hvelocity | ⟨-, rfl⟩
    · exact hvelocity.2
    · exact ⟨by decide, by decide⟩
  refine ⟨⟨hlane, htick.2.1, hpitch.2, hstruck, hlength.2.1⟩, fun m hm => ?_⟩
  have hstart := htick.2
  have hlasts := hlength.2
  simp only [Addition.marks, List.mem_cons, List.not_mem_nil, or_false] at hm
  rcases hm with rfl | rfl
  · simp only [Mark.tick]
    omega
  · simp only [Mark.tick]
    omega

/-- A program that is given is in range. -/
theorem GivesProgram.given {channel : Int} (hlane : IsLane channel) {item : Json}
    (h : GivesProgram channel item added) : ∀ a ∈ added, a.Given := by
  obtain ⟨members, tick, number, -, htick, hnumber, rfl⟩ := h
  intro a ha
  rw [List.mem_singleton.mp ha]
  refine ⟨⟨hlane, htick.2.1, hnumber.2⟩, fun m hm => ?_⟩
  have hstart := htick.2
  rw [List.mem_singleton.mp hm, Mark.tick]
  omega

/-- What is given for a channel is in range. -/
theorem GivesChannel.given {member : String × Json} (h : GivesChannel member added) :
    ∀ a ∈ added, a.Given := by
  obtain ⟨channel, members, notes, struck, programs, chosen, -, hlane, -, -, hstruck, -, hchosen,
    rfl⟩ := h
  intro a ha
  rcases List.mem_append.mp ha with ha | ha
  · exact forall_mem_flatten_of_gives hstruck (fun _ _ => GivesNote.given hlane) a ha
  · exact forall_mem_flatten_of_gives hchosen (fun _ _ => GivesProgram.given hlane) a ha

/-- A command that is given is in range. -/
theorem GivesCommand.given {tick : Int} {name : String} {gives : Json → String → Prop}
    {value : Option Json} (htick : 0 ≤ tick ∧ tick ≤ maxTick) (hname : IsCommand name)
    (h : GivesCommand tick name gives value added) : ∀ a ∈ added, a.Given := by
  intro a ha
  cases value with
  | none =>
    cases h
    cases ha
  | some value =>
    obtain ⟨text, -, rfl⟩ := h
    rw [List.mem_singleton.mp ha]
    refine ⟨⟨htick.1, hname⟩, fun m hm => ?_⟩
    rw [Addition.of_mem_marks_command hm, Mark.tick]
    omega

/-- The commands that are given are in range. -/
theorem GivesCommands.given {item : Json} (h : GivesCommands item added) :
    ∀ a ∈ added, a.Given := by
  obtain ⟨members, tick, tempos, keys, -, htick, htempos, hkeys, rfl⟩ := h
  intro a ha
  rcases List.mem_append.mp ha with ha | ha
  · exact htempos.given htick.2 (Or.inl rfl) a ha
  · exact hkeys.given htick.2 (Or.inr rfl) a ha

/-- The entries that a document gives are in range, and none of their ticks is beyond its ticks. -/
theorem Gives.given {members : List (String × Json)} (h : Gives members added) :
    ∀ a ∈ added, a.Given := by
  obtain ⟨channels, played, items, given, -, hplayed, -, hgiven, rfl⟩ := h
  intro a ha
  rcases List.mem_append.mp ha with ha | ha
  · exact forall_mem_flatten_of_gives hplayed (fun _ _ => GivesChannel.given) a ha
  · exact forall_mem_flatten_of_gives hgiven (fun _ _ => GivesCommands.given) a ha

/-- The entries that a document gives are in range. -/
theorem Gives.inRange {members : List (String × Json)} (h : Gives members added) :
    ∀ a ∈ added, a.InRange :=
  fun a ha => (h.given a ha).inRange

/-- The end that a document declares is a tick of a document, and no tick of its recording is beyond
twice the largest of those. -/
theorem ticks_le_of_ofDocument {document : Json} (hok : ofDocument document = .ok r) :
    (∀ n ∈ r.endTick, n ≤ maxTick) ∧ ∀ tick ∈ r.ticks, tick ≤ 2 * maxTick := by
  obtain ⟨members, added, resolution, endTick, -, hgives, -, hend, rfl⟩ :=
    exists_gives_of_ofDocument hok
  rw [addAll_eq_markAll]
  constructor
  · rw [markAll_eq]
    rintro n rfl
    exact hend.2.2
  · intro tick htick
    rcases (mem_ticks_markAll ..).mp htick with ⟨m, hm, rfl⟩ | htick
    · obtain ⟨a, ha, hm⟩ := List.mem_flatMap.mp hm
      exact (hgives.given a ha).ticks m hm
    · cases htick

/-! ### Last entries -/

/-- An addition is the last one that gives a value to its slot. -/
def LastIn (added : List Addition) (a : Addition) : Prop :=
  ∃ before after, added = before ++ a :: after ∧ ∀ b ∈ after, b.slot ≠ a.slot

/-- The value that an addition gives to its slot. -/
def Addition.value : Addition → Int ⊕ String
  | note _ _ _ velocity _ => .inl velocity
  | program _ _ number => .inl number
  | command _ _ text => .inr text

/-- The value that a recording holds for a slot. -/
def valueAt? (r : Recording) : Slot → Option (Int ⊕ String)
  | .note channel tick pitch => ((r.struckAt channel tick).get? pitch).map .inl
  | .program channel tick => ((r.programsOn channel).get? tick).map .inl
  | .command tick name => ((r.commandsAt tick).get? name).map .inr

/-- Adding a note puts its velocity among those struck at its tick. -/
theorem struckAt_addNote (r : Recording) (channel tick pitch velocity length : Int)
    (channel' tick' : Int) :
    (r.addNote channel tick pitch velocity length).struckAt channel' tick' =
      if channel = channel' ∧ tick = tick' then (r.struckAt channel tick).insert pitch velocity
      else r.struckAt channel' tick' := by
  obtain ⟨presses, hreleased⟩ :=
    (r.strike channel tick pitch velocity).release_eq channel (tick + length) pitch
  rw [addNote, hreleased]
  exact struckAt_setStruck r ..

/-- Adding a note chooses no program and gives no command. -/
theorem addNote_eq (r : Recording) (channel tick pitch velocity length : Int) :
    ∃ strikes presses,
      r.addNote channel tick pitch velocity length = { r with strikes, presses } := by
  obtain ⟨presses, hreleased⟩ :=
    (r.strike channel tick pitch velocity).release_eq channel (tick + length) pitch
  exact ⟨_, presses, hreleased⟩

/-- Choosing a program puts it among those of its channel. -/
theorem programsOn_addProgram (r : Recording) (channel tick number channel' : Int) :
    (r.addProgram channel tick number).programsOn channel' =
      if channel = channel' then (r.programsOn channel).insert tick number
      else r.programsOn channel' :=
  Table.getD_alterIn r.programs channel channel' (fun programs => programs.insert tick number)

/-- Giving a command puts it among those at its tick. -/
theorem commandsAt_setCommand (r : Recording) (tick : Int) (name text : String) (tick' : Int) :
    (r.setCommand tick name text).commandsAt tick' =
      if tick = tick' then (r.commandsAt tick).insert name text else r.commandsAt tick' :=
  Table.getD_alterIn r.globals tick tick' (fun commands => commands.insert name text)

/-- An addition puts its value into its slot, and changes no other one. -/
theorem valueAt?_add (r : Recording) {a : Addition} (ha : a.InRange) (slot : Slot) :
    (r.addAll [a]).valueAt? slot = if a.slot = slot then some a.value else r.valueAt? slot := by
  cases a with
  | note channel tick pitch velocity length =>
    change (r.addNote channel tick pitch velocity length).valueAt? slot = _
    cases slot with
    | note channel' tick' pitch' =>
      simp only [valueAt?, struckAt_addNote, Addition.slot, Slot.note.injEq, Addition.value]
      by_cases hplace : channel = channel' ∧ tick = tick'
      · obtain ⟨rfl, rfl⟩ := hplace
        rw [if_pos ⟨rfl, rfl⟩, Table.get?_insert]
        by_cases hpitch : pitch = pitch'
        · simp [hpitch]
        · simp [hpitch]
      · rw [if_neg hplace, if_neg (fun h => hplace ⟨h.1, h.2.1⟩)]
    | program | command =>
      obtain ⟨strikes, presses, hadded⟩ := r.addNote_eq channel tick pitch velocity length
      rw [hadded]
      rfl
  | program channel tick number =>
    cases slot with
    | program channel' tick' =>
      change (((r.addProgram channel tick number).programsOn channel').get? tick').map _ = _
      simp only [valueAt?, programsOn_addProgram, Addition.slot, Slot.program.injEq, Addition.value]
      by_cases hchannel : channel = channel'
      · subst hchannel
        rw [if_pos rfl, Table.get?_insert]
        by_cases htick : tick = tick'
        · simp [htick]
        · simp [htick]
      · rw [if_neg hchannel, if_neg (fun h => hchannel h.1)]
    | note | command => rfl
  | command tick name text =>
    rw [addAll_command ha.2]
    cases slot with
    | command tick' name' =>
      simp only [valueAt?, commandsAt_setCommand, Addition.slot, Slot.command.injEq, Addition.value]
      by_cases htick : tick = tick'
      · subst htick
        rw [if_pos rfl, Table.get?_insert]
        by_cases hname : name = name'
        · simp [hname]
        · simp [hname]
      · rw [if_neg htick, if_neg (fun h => htick h.1)]
    | note | program => rfl

/-- After all additions a slot has the value of the last one that gives it a value. -/
theorem valueAt?_addAll (r : Recording) (hadded : ∀ a ∈ added, a.InRange) (slot : Slot) :
    (r.addAll added).valueAt? slot =
      ((added.reverse.find? (fun a => a.slot = slot)).map Addition.value).or (r.valueAt? slot) := by
  induction added generalizing r with
  | nil => rfl
  | cons a added ih =>
    have hrest := ih (r.addAll [a]) (fun b hb => hadded b (List.mem_cons_of_mem _ hb))
    rw [← List.singleton_append, addAll_append, hrest,
      r.valueAt?_add (hadded a List.mem_cons_self), List.singleton_append, List.reverse_cons,
      List.find?_append]
    cases added.reverse.find? (fun a => a.slot = slot) with
    | some b => rfl
    | none => by_cases hslot : a.slot = slot <;> simp [hslot]

/-- The first addition to a slot from the end is the last one. -/
theorem find?_reverse_eq_some_iff {slot : Slot} {a : Addition} :
    added.reverse.find? (fun a => a.slot = slot) = some a ↔ LastIn added a ∧ a.slot = slot := by
  rw [List.find?_eq_some_iff_append]
  constructor
  · rintro ⟨hslot, after, before, hsplit, hafter⟩
    have hslot : a.slot = slot := of_decide_eq_true hslot
    refine ⟨⟨before.reverse, after.reverse, ?_, fun b hb => ?_⟩, hslot⟩
    · rw [← List.reverse_reverse added, hsplit]
      simp
    · rw [hslot]
      simpa using hafter b (List.mem_reverse.mp hb)
  · rintro ⟨⟨before, after, rfl, hafter⟩, rfl⟩
    refine ⟨decide_eq_true rfl, after.reverse, before.reverse, by simp, fun b hb => ?_⟩
    simpa using hafter b (List.mem_reverse.mp hb)

/-- A recording of additions holds in every slot the value of the last addition to it. -/
theorem valueAt?_eq_some_iff {resolution : Int} {endTick : Option Int}
    (hadded : ∀ a ∈ added, a.InRange) {slot : Slot} {value : Int ⊕ String} :
    (addAll { resolution, endTick } added).valueAt? slot = some value ↔
      ∃ a, LastIn added a ∧ a.slot = slot ∧ a.value = value := by
  have hnew : valueAt? { resolution, endTick } slot = none := by cases slot <;> rfl
  rw [valueAt?_addAll _ hadded, hnew, Option.or_none, Option.map_eq_some_iff]
  simp only [find?_reverse_eq_some_iff, and_assoc]

/-- A note that is struck in a recording of additions is released later. -/
theorem exists_release {resolution : Int} {endTick : Option Int}
    (hadded : ∀ a ∈ added, a.InRange) {channel tick pitch : Int}
    (hstruck : pitch ∈ ((addAll { resolution, endTick } added).struckAt channel tick).keys) :
    ∃ off ∈ ((addAll { resolution, endTick } added).pressesOf channel pitch).keys, tick < off := by
  obtain ⟨velocity, hvelocity⟩ := Table.mem_keys_iff.mp hstruck
  have hvalue : (addAll { resolution, endTick } added).valueAt? (.note channel tick pitch) =
      some (.inl velocity) := by rw [valueAt?, hvelocity, Option.map_some]
  obtain ⟨a, ⟨before, after, hsplit, -⟩, hslot, -⟩ := (valueAt?_eq_some_iff hadded).mp hvalue
  have hmem : a ∈ added := by
    rw [hsplit]
    exact List.mem_append_right _ List.mem_cons_self
  cases a with
  | note channel' tick' pitch' velocity' length =>
    cases hslot
    obtain ⟨-, -, -, -, hlength⟩ := hadded _ hmem
    refine ⟨tick + length, (mem_keys_addAll ..).mpr (Or.inr ?_), by omega⟩
    exact ⟨tick, velocity', length, hmem, rfl⟩
  | program | command => cases hslot

/-- **A recording keeps what its document gives.** A recording that is read from a document has all
its numbers in their ranges, and at every tick with global commands it has at least one. It has the
resolution and the end of the document, and for every note, program and command it holds the value
of the last entry of the document that gives one, and nothing else. Every note that is struck is
released or struck again at a later tick. -/
theorem ofDocument_keeps {document : Json} (hok : ofDocument document = .ok r) :
    r.InRange ∧
    (∃ members added, document = .obj members ∧ Gives members added ∧
      Json.HasInt members "resolution" 1 65535 r.resolution ∧ GivesEnd members r.endTick ∧
      ∀ slot value, r.valueAt? slot = some value ↔
        ∃ a, LastIn added a ∧ a.slot = slot ∧ a.value = value) ∧
    ∀ channel tick pitch, pitch ∈ (r.struckAt channel tick).keys →
      ∃ off ∈ (r.pressesOf channel pitch).keys, tick < off := by
  obtain ⟨members, added, resolution, endTick, hdocument, hgives, hresolution, hend, rfl⟩ :=
    exists_gives_of_ofDocument hok
  have hadded := hgives.inRange
  have hsame : (addAll { resolution, endTick } added).resolution = resolution ∧
      (addAll { resolution, endTick } added).endTick = endTick := by
    rw [addAll_eq_markAll, markAll_eq]
    exact ⟨rfl, rfl⟩
  have hempty : InRange { resolution, endTick } := by
    refine ⟨hresolution.2, fun n hn => ?_, .empty, .empty, .empty, .empty⟩
    cases hn
    exact hend.2.1
  refine ⟨hempty.addAll hadded, ⟨members, added, hdocument, hgives, ?_, ?_, ?_⟩, ?_⟩
  · rw [hsame.1]
    exact hresolution
  · rw [hsame.2]
    exact hend
  · exact fun _ _ => valueAt?_eq_some_iff hadded
  · exact fun _ _ _ => exists_release hadded

/-- A document in which a note is given on two channels of one number, first with a velocity and
then without one, and a tempo twice. -/
def merged : Json :=
  .obj
    [("resolution", .int 480), ("end_tick", .null),
      ("channels", .obj
        [("1", .obj
          [("notes", .arr [.obj [("tick", .int 0), ("note", .int 60), ("velocity", .int 90),
            ("length", .int 480)]])]),
          ("01", .obj
            [("notes", .arr
              [.obj [("tick", .int 0), ("note", .int 60), ("length", .int 240)]])])]),
      ("globals", .arr
        [.obj [("tick", .int 0), ("tempo", .int 90), ("key", .str "2/0")],
          .obj [("tick", .int 0), ("tempo", .int 120)]])]

/-- The later note and the later tempo count. -/
theorem ofDocument_keeps_merged :
    ∃ r, ofDocument merged = .ok r ∧ r.InRange ∧
      (∃ members added, merged = .obj members ∧ Gives members added ∧
        (∃ a, LastIn added a ∧ a.slot = .note 1 0 60 ∧ a.value = .inl 100) ∧
        ∃ a, LastIn added a ∧ a.slot = .command 0 tempoCommand ∧ a.value = .inr "120") ∧
      ∃ off ∈ (r.pressesOf 1 60).keys, 0 < off := by
  obtain ⟨r, hok, hr⟩ := exists_eq_ok (show (ofDocument merged).toOption.any
    (fun r => r.valueAt? (.note 1 0 60) = some (.inl 100) ∧
      r.valueAt? (.command 0 tempoCommand) = some (.inr "120") ∧
      60 ∈ (r.struckAt 1 0).keys) = true by decide +kernel)
  obtain ⟨hnote, htempo, hstruck⟩ := of_decide_eq_true hr
  obtain ⟨hrange, ⟨members, added, hdocument, hgives, -, -, hlast⟩, hoff⟩ := ofDocument_keeps hok
  exact ⟨r, hok, hrange, ⟨members, added, hdocument, hgives, (hlast _ _).mp hnote,
    (hlast _ _).mp htempo⟩, hoff 1 0 60 hstruck⟩

end Recording

end Transcription
