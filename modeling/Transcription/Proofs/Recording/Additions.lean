import Transcription.Proofs.Recording.Marks

/-!
# Notes, presses and releases

Every addition to a recording makes marks: a note its strike and its release, a program and a
command one each. So the presses of a pitch are known from the notes that were added: it is pressed
where one of them starts, and released where one of them ends and none starts. This holds for notes
of any length and in whatever order they are added.
-/

namespace Transcription

namespace Recording

/-! ### Marks of additions -/

namespace Addition

/-- The marks of an addition. What is refused makes none. -/
def marks : Addition → List Mark
  | note channel tick pitch velocity length =>
    [.strike channel tick pitch velocity, .release channel (tick + length) pitch]
  | program channel tick number => [.program channel tick number]
  | command tick name value =>
    if name = tempoCommand ∨ name = keyCommand then [.command tick name value] else []

/-- An addition makes its marks, and a refused one leaves the recording as it is. -/
theorem addTo_eq (a : Addition) (r : Recording) :
    (a.addTo r).toOption.getD r = r.markAll a.marks := by
  cases a with
  | note channel tick pitch velocity length => rfl
  | program channel tick number => rfl
  | command tick name value =>
    simp only [addTo, addCommand, marks]
    split
    · rfl
    · rfl

end Addition

/-- Additions make their marks one after the other. -/
theorem addAll_eq_markAll (r : Recording) (added : List Addition) :
    r.addAll added = r.markAll (added.flatMap Addition.marks) := by
  unfold addAll markAll
  induction added generalizing r with
  | nil => rfl
  | cons a added ih =>
    rw [List.foldl_cons, Addition.addTo_eq, ih, List.flatMap_cons, List.foldl_append]
    rfl

/-- What an addition gives a value to. -/
inductive Slot where
  /-- A note by its channel, its tick and its pitch. -/
  | note (channel tick pitch : Int)
  /-- A program by its channel and its tick. -/
  | program (channel tick : Int)
  /-- A global command by its tick and its name. -/
  | command (tick : Int) (name : String)
  deriving DecidableEq

/-- What an addition gives a value to. -/
def Addition.slot : Addition → Slot
  | note channel tick pitch _ _ => .note channel tick pitch
  | program channel tick _ => .program channel tick
  | command tick name _ => .command tick name

/-- The only mark of a command is the command. -/
theorem Addition.of_mem_marks_command {tick : Int} {name value : String} {m : Mark}
    (h : m ∈ (command tick name value).marks) : m = .command tick name value := by
  rw [marks] at h
  split at h
  · exact List.mem_singleton.mp h
  · cases h

/-- A strike among the marks of an addition is that of a note. -/
theorem Addition.of_strike_mem {a : Addition} {channel tick pitch velocity : Int}
    (h : .strike channel tick pitch velocity ∈ a.marks) :
    ∃ length, a = .note channel tick pitch velocity length := by
  cases a with
  | note channel' tick' pitch' velocity' length => simpa [marks, eq_comm] using h
  | program channel' tick' number => simp [marks] at h
  | command => cases of_mem_marks_command h

/-- A program among the marks of an addition is the addition. -/
theorem Addition.of_program_mem {a : Addition} {channel tick number : Int}
    (h : .program channel tick number ∈ a.marks) : a = .program channel tick number := by
  cases a with
  | note channel' tick' pitch' velocity' length => simp [marks] at h
  | program channel' tick' number' => simpa [marks, eq_comm] using h
  | command => cases of_mem_marks_command h

/-- A command among the marks of an addition is the addition. -/
theorem Addition.of_command_mem {a : Addition} {tick : Int} {name value : String}
    (h : .command tick name value ∈ a.marks) : a = .command tick name value := by
  cases a with
  | note channel' tick' pitch' velocity' length => simp [marks] at h
  | program channel' tick' number' => simp [marks] at h
  | command =>
    cases of_mem_marks_command h
    rfl

/-- The marks of additions agree unless two different ones give a value to one thing. -/
theorem Addition.agrees {a b : Addition} (hslot : a.slot = b.slot → a = b) {m k : Mark}
    (hm : m ∈ a.marks) (hk : k ∈ b.marks) : m.Agrees k := by
  cases m with
  | strike channel tick pitch velocity =>
    cases k with
    | strike channel' tick' pitch' velocity' =>
      obtain ⟨length, rfl⟩ := of_strike_mem hm
      obtain ⟨length', rfl⟩ := of_strike_mem hk
      rintro rfl rfl rfl
      cases hslot rfl
      rfl
    | _ => trivial
  | program channel tick number =>
    cases k with
    | program channel' tick' number' =>
      cases of_program_mem hm
      cases of_program_mem hk
      rintro rfl rfl
      cases hslot rfl
      rfl
    | _ => trivial
  | command tick name value =>
    cases k with
    | command tick' name' value' =>
      cases of_command_mem hm
      cases of_command_mem hk
      rintro rfl rfl
      cases hslot rfl
      rfl
    | _ => trivial
  | release => trivial

/-- The marks of additions agree if each of these gives a value to something else. -/
theorem agrees_of_nodup {added : List Addition} (hslots : (added.map Addition.slot).Nodup) :
    ∀ m ∈ added.flatMap Addition.marks, ∀ k ∈ added.flatMap Addition.marks, m.Agrees k := by
  intro m hm k hk
  obtain ⟨a, ha, hm⟩ := List.mem_flatMap.mp hm
  obtain ⟨b, hb, hk⟩ := List.mem_flatMap.mp hk
  exact Addition.agrees (fun hslot => List.inj_on_of_nodup_map hslots ha hb hslot) hm hk

/-- The order of additions does not matter if each of them gives a value to something else. -/
theorem addAll_perm {added added' : List Addition} (hperm : added.Perm added')
    (hslots : (added.map Addition.slot).Nodup) (r : Recording) :
    r.addAll added = r.addAll added' := by
  rw [addAll_eq_markAll, addAll_eq_markAll]
  exact markAll_perm (hperm.flatMap_right Addition.marks) (agrees_of_nodup hslots) r

/-! ### Starts and ends of notes -/

/-- A note of the pitch that is added starts at the tick. -/
def StartsAt (added : List Addition) (channel pitch tick : Int) : Prop :=
  ∃ velocity length, .note channel tick pitch velocity length ∈ added

/-- A note of the pitch that is added ends at the tick. -/
def EndsAt (added : List Addition) (channel pitch tick : Int) : Prop :=
  ∃ start velocity length, .note channel start pitch velocity length ∈ added ∧ start + length = tick

/-- Among the marks of an addition a pitch is pressed at a tick if the addition is a note that
starts there. -/
theorem Addition.exists_pressed_iff {a : Addition} {channel pitch tick : Int} :
    (∃ m ∈ a.marks, m.pressed? channel pitch tick = some true) ↔
      ∃ velocity length, a = .note channel tick pitch velocity length := by
  cases a with
  | note channel' tick' pitch' velocity length =>
    simp [marks, Mark.pressed?, and_comm]
  | program channel' tick' number => simp [marks, Mark.pressed?]
  | command tick' name value =>
    refine iff_of_false ?_ (by simp)
    rintro ⟨m, hm, hpressed⟩
    cases of_mem_marks_command hm
    cases hpressed

/-- Among the marks of an addition a pitch is released at a tick if the addition is a note that ends
there. -/
theorem Addition.exists_released_iff {a : Addition} {channel pitch tick : Int} :
    (∃ m ∈ a.marks, m.pressed? channel pitch tick = some false) ↔
      ∃ start velocity length, a = .note channel start pitch velocity length ∧
        start + length = tick := by
  cases a with
  | note channel' tick' pitch' velocity length =>
    simp [marks, Mark.pressed?, and_comm, and_assoc]
  | program channel' tick' number => simp [marks, Mark.pressed?]
  | command tick' name value =>
    refine iff_of_false ?_ (by simp)
    rintro ⟨m, hm, hpressed⟩
    cases of_mem_marks_command hm
    cases hpressed

/-- A recording of additions presses a pitch where one of its notes starts. -/
theorem pressed_addAll (resolution : Int) (endTick : Option Int) (added : List Addition)
    (channel pitch tick : Int) :
    ((addAll { resolution, endTick } added).pressesOf channel pitch).get? tick = some true ↔
      StartsAt added channel pitch tick := by
  have hnew : ((Recording.pressesOf { resolution, endTick } channel pitch).get? tick) = none := rfl
  rw [addAll_eq_markAll, pressed_markAll, hnew, StartsAt]
  simp only [List.mem_flatMap, reduceCtorEq, or_false]
  constructor
  · rintro ⟨m, ⟨a, ha, hm⟩, hpressed⟩
    obtain ⟨velocity, length, rfl⟩ := Addition.exists_pressed_iff.mp ⟨m, hm, hpressed⟩
    exact ⟨velocity, length, ha⟩
  · rintro ⟨velocity, length, ha⟩
    obtain ⟨m, hm, hpressed⟩ := Addition.exists_pressed_iff.mpr ⟨velocity, length, rfl⟩
    exact ⟨m, ⟨_, ha, hm⟩, hpressed⟩

/-- A recording of additions knows of a pitch where one of its notes starts or ends. -/
theorem mem_keys_addAll (resolution : Int) (endTick : Option Int) (added : List Addition)
    (channel pitch tick : Int) :
    tick ∈ ((addAll { resolution, endTick } added).pressesOf channel pitch).keys ↔
      StartsAt added channel pitch tick ∨ EndsAt added channel pitch tick := by
  have hnew : ((Recording.pressesOf { resolution, endTick } channel pitch).get? tick) = none := rfl
  rw [← Table.contains_iff, Table.contains, addAll_eq_markAll, isSome_markAll, hnew]
  simp only [List.mem_flatMap, Option.isSome_none, Bool.false_eq_true, or_false]
  constructor
  · rintro ⟨m, ⟨a, ha, hm⟩, hsome⟩
    obtain ⟨pressed, hpressed⟩ := Option.isSome_iff_exists.mp hsome
    cases pressed with
    | true =>
      obtain ⟨velocity, length, rfl⟩ := Addition.exists_pressed_iff.mp ⟨m, hm, hpressed⟩
      exact Or.inl ⟨velocity, length, ha⟩
    | false =>
      obtain ⟨start, velocity, length, rfl, hend⟩ :=
        Addition.exists_released_iff.mp ⟨m, hm, hpressed⟩
      exact Or.inr ⟨start, velocity, length, ha, hend⟩
  · rintro (⟨velocity, length, ha⟩ | ⟨start, velocity, length, ha, hend⟩)
    · obtain ⟨m, hm, hpressed⟩ := Addition.exists_pressed_iff.mpr ⟨velocity, length, rfl⟩
      exact ⟨m, ⟨_, ha, hm⟩, by rw [hpressed]; rfl⟩
    · obtain ⟨m, hm, hpressed⟩ :=
        Addition.exists_released_iff.mpr ⟨start, velocity, length, rfl, hend⟩
      exact ⟨m, ⟨_, ha, hm⟩, by rw [hpressed]; rfl⟩

/-- No channel is refused where all are allowed. -/
theorem allowed_of_all (source : Source) : source.Allowed (fun _ => True) := by
  cases source with
  | additions resolution endTick added => exact fun a _ => by cases a <;> trivial
  | tracks f => exact fun _ _ e _ => by cases hmessage : e.message <;> trivial

/-- **Presses are strikes.** In a recording from any source, a pitch is pressed at a tick exactly if
it is struck there. If it was made by additions, whatever numbers they have and in whatever order
they come, the presses of a pitch have exactly the ticks at which one of its notes starts or ends,
and the pitch is released at a tick exactly if one of its notes ends and none starts there. -/
theorem presses_as_struck {source : Source} {r : Recording} (hok : source.record = .ok r) :
    (∀ channel pitch tick, (r.pressesOf channel pitch).get? tick = some true ↔
      pitch ∈ (r.struckAt channel tick).keys) ∧
    ∀ resolution endTick added, source = .additions resolution endTick added →
      ∀ channel pitch tick,
        (tick ∈ (r.pressesOf channel pitch).keys ↔
          StartsAt added channel pitch tick ∨ EndsAt added channel pitch tick) ∧
        ((r.pressesOf channel pitch).get? tick = some false ↔
          EndsAt added channel pitch tick ∧ ¬ StartsAt added channel pitch tick) := by
  refine ⟨(Source.made (allowed_of_all source) hok).pressesMatch, ?_⟩
  rintro resolution endTick added rfl channel pitch tick
  have hr : r = addAll { resolution, endTick } added := by
    obtain ⟨r₀, hnew, hok⟩ := bind_eq_ok.mp hok
    cases hok
    rw [(new_eq_ok.mp hnew).2]
  have hkeys := mem_keys_addAll resolution endTick added channel pitch tick
  have hpressed := pressed_addAll resolution endTick added channel pitch tick
  rw [← hr] at hkeys hpressed
  refine ⟨hkeys, ?_⟩
  constructor
  · intro hreleased
    have hnot : ¬ StartsAt added channel pitch tick := fun hstart => by
      have hstruck := hpressed.mpr hstart
      rw [hreleased] at hstruck
      cases hstruck
    have hkey : tick ∈ (r.pressesOf channel pitch).keys := Table.mem_keys_iff.mpr ⟨_, hreleased⟩
    exact ⟨(hkeys.mp hkey).resolve_left hnot, hnot⟩
  · rintro ⟨hend, hnot⟩
    obtain ⟨pressed, hget⟩ := Table.mem_keys_iff.mp (hkeys.mpr (Or.inr hend))
    cases pressed with
    | false => exact hget
    | true => exact absurd (hpressed.mp hget) hnot

/-- A note without length where another one ends, a note that ends before it starts, and a command
that is refused. -/
def crossing : List Addition :=
  [.note 0 960 60 100 0, .note 0 480 60 90 480, .command 0 "volume" "3", .note 0 480 60 80 (-240)]

/-- A note without length stays pressed, also where another one ends, and a note that ends before it
starts is released there. -/
theorem presses_as_struck_crossing :
    ∃ r, (Source.additions 480 none crossing).record = .ok r ∧
      (r.pressesOf 0 60).get? 960 = some true ∧ (r.pressesOf 0 60).get? 240 = some false ∧
      720 ∉ (r.pressesOf 0 60).keys := by
  have hok : (Source.additions 480 none crossing).record =
      .ok (addAll { resolution := 480 } crossing) := rfl
  obtain ⟨hstruck, hadded⟩ := presses_as_struck hok
  have hpresses := hadded 480 none crossing rfl 0 60
  refine ⟨_, hok, (hstruck 0 60 960).mpr (by decide +kernel), (hpresses 240).2.mpr ⟨?_, ?_⟩, ?_⟩
  · exact ⟨480, 80, -240, by decide, by decide⟩
  · rintro ⟨velocity, length, hmem⟩
    simp [crossing] at hmem
  · rw [(hpresses 720).1]
    rintro (⟨velocity, length, hmem⟩ | ⟨start, velocity, length, hmem, hend⟩)
    · simp [crossing] at hmem
    · simp [crossing] at hmem
      omega

end Recording

end Transcription
