import Mathlib.Data.List.Chain
import Transcription.Proofs.Slice.Building

/-!
# Slices partition a recording

The slices of a recording cover every tick before their end exactly once. Each of them has the
global commands of its begin, and together their timelines hold every strike of the recording
exactly once, in the slice that contains its tick or, past the end, in the last one.
-/

namespace Transcription

/-! ### Covering ticks -/

namespace Contiguous

variable {first tick : Int} {l : List (Int × Int)}

/-- A tick before the first begin lies within none of the bounds. -/
theorem countP_before (h : Contiguous first l) (htick : tick < first) :
    l.countP (fun b => b.1 ≤ tick ∧ tick < b.2) = 0 := by
  apply List.countP_eq_zero.mpr
  intro b hb
  have := (h.first_le hb).1
  simp only [decide_eq_true_eq]
  omega

/-- A tick between the first begin and the last end lies within exactly one of the bounds. -/
theorem countP_within (h : Contiguous first l) (hfirst : first ≤ tick) {last : Int × Int}
    (hlast : l.getLast? = some last) (hend : tick < last.2) :
    l.countP (fun b => b.1 ≤ tick ∧ tick < b.2) = 1 := by
  induction l generalizing first with
  | nil => simp at hlast
  | cons b rest ih =>
    obtain ⟨rfl, hlt, hrest⟩ := h
    by_cases hin : tick < b.2
    · rw [List.countP_cons_of_pos (by simp [hfirst, hin]), hrest.countP_before hin]
    · rw [List.countP_cons_of_neg (by simp [hin])]
      cases rest with
      | nil =>
        cases hlast
        exact absurd hend hin
      | cons c rest =>
        rw [List.getLast?_cons_cons] at hlast
        exact ih hrest (by omega) hlast

/-- No bounds end after the last ones. -/
theorem snd_le_last (h : Contiguous first l) {b last : Int × Int} (hb : b ∈ l)
    (hlast : l.getLast? = some last) : b.2 ≤ last.2 := by
  induction l generalizing first b with
  | nil => simp at hb
  | cons a rest ih =>
    obtain ⟨_, _, hrest⟩ := h
    cases rest with
    | nil =>
      cases hlast
      cases List.mem_singleton.mp hb
      exact Int.le_refl _
    | cons c rest =>
      rw [List.getLast?_cons_cons] at hlast
      rcases List.mem_cons.mp hb with rfl | hb
      · have hnext := hrest.first_le List.mem_cons_self
        have := ih hrest List.mem_cons_self hlast
        omega
      · exact ih hrest hb hlast

/-- Each of the bounds ends where the next ones begin. -/
theorem isChain (h : Contiguous first l) : l.IsChain (fun a b => a.2 = b.1) := by
  induction l generalizing first with
  | nil => exact .nil
  | cons b rest ih =>
    obtain ⟨_, _, hrest⟩ := h
    cases rest with
    | nil => exact .singleton b
    | cons c rest => exact .cons_cons hrest.1.symm (ih hrest)

end Contiguous

/-! ### Strikes as a list -/

/-- A note that is struck. -/
structure Strike where
  /-- The channel on which it is struck. -/
  channel : Int
  /-- The tick at which it is struck. -/
  tick : Int
  /-- Which note is struck. -/
  pitch : Int
  /-- How hard it is struck. -/
  velocity : Int
  deriving DecidableEq

/-- All strikes of a recording. -/
def Recording.allStrikes (r : Recording) : List Strike :=
  r.strikes.entries.flatMap (fun c => c.2.entries.flatMap (fun e =>
    e.2.entries.map (fun n => ⟨c.1, e.1, n.1, n.2⟩)))

/-- All global commands of a recording, each with its tick, its name and its value. -/
def Recording.allCommands (r : Recording) : List (Int × String × String) :=
  r.globals.entries.flatMap (fun e => e.2.entries.map (fun command => (e.1, command)))

/-- All strikes of the timelines of a slice. -/
def Slice.allStrikes (s : Slice) : List Strike :=
  (List.finRange channelCount).flatMap (fun lane => (s.timelines.get lane).flatMap (fun e =>
    e.2.struck.entries.map (fun n => ⟨lane.val, e.1, n.1, n.2.velocity⟩)))

/-- Lists of distinct items that can be told apart by a key are joined into a list of distinct
items. -/
theorem nodup_flatMap_of_key {α β κ : Type} {l : List α} {f : α → List β} {k : α → κ}
    (key : β → κ) (hkeys : (l.map k).Nodup) (hf : ∀ a ∈ l, (f a).Nodup)
    (hkey : ∀ a ∈ l, ∀ b ∈ f a, key b = k a) : (l.flatMap f).Nodup := by
  rw [List.nodup_flatMap]
  refine ⟨hf, (List.pairwise_map.mp hkeys).imp_of_mem (fun {a a'} ha ha' hne b hb hb' => ?_)⟩
  exact hne ((hkey a ha b hb).symm.trans (hkey a' ha' b hb'))

/-- Items that add nothing can be left out. -/
private theorem flatMap_filter_of_nil {α β : Type} {l : List α} {p : α → Bool} {f : α → List β}
    (hnil : ∀ a ∈ l, ¬ p a = true → f a = []) : (l.filter p).flatMap f = l.flatMap f := by
  induction l with
  | nil => rfl
  | cons a rest ih =>
    have hrest := ih (fun b hb => hnil b (List.mem_cons_of_mem _ hb))
    by_cases hp : p a = true
    · rw [List.filter_cons_of_pos hp, List.flatMap_cons, List.flatMap_cons, hrest]
    · rw [List.filter_cons_of_neg hp, List.flatMap_cons, hnil a List.mem_cons_self hp, hrest]
      rfl

/-- In an ascending list from the start on, the start can be put in front of the later ticks. -/
private theorem flatMap_ascending {β : Type} {ticks : List Int} {f : Int → List β}
    (hascending : ticks.Pairwise (· < ·)) (hnonneg : ∀ tick ∈ ticks, 0 ≤ tick)
    (hzero : 0 ∉ ticks → f 0 = []) :
    ticks.flatMap f = (0 :: ticks.filter (fun tick => 0 < tick)).flatMap f := by
  cases ticks with
  | nil => simp [hzero]
  | cons tick rest =>
    rw [List.pairwise_cons] at hascending
    have hfirst := hnonneg tick List.mem_cons_self
    have hrest : rest.filter (fun tick => 0 < tick) = rest := by
      rw [List.filter_eq_self]
      intro later hlater
      have := hascending.1 later hlater
      simp only [decide_eq_true_eq]
      omega
    by_cases hstart : tick = 0
    · rw [List.filter_cons_of_neg (by simp [hstart]), hrest, hstart]
    · have hnotMem : 0 ∉ tick :: rest := by
        intro hmem
        rcases List.mem_cons.mp hmem with h | h
        · exact hstart h.symm
        · have := hascending.1 0 h
          omega
      rw [List.filter_cons_of_pos (by simp only [decide_eq_true_eq]; omega), hrest,
        List.flatMap_cons (x := 0), hzero hnotMem, List.nil_append]

private theorem nodup_keys {κ α : Type} [LT κ] [LE κ] [Std.LawfulOrderLT κ] (t : Table κ α) :
    (t.entries.map Prod.fst).Nodup :=
  t.keys_pairwise.imp Std.ne_of_lt

namespace Recording

variable {r : Recording}

/-- A strike of a recording is a note that is struck at its tick, with its velocity. -/
theorem mem_allStrikes {n : Strike} : n ∈ r.allStrikes ↔
    (r.struckAt n.channel n.tick).get? n.pitch = some n.velocity := by
  obtain ⟨channel, tick, pitch, velocity⟩ := n
  rw [allStrikes, struckAt, strikesOn]
  simp only [List.mem_flatMap, List.mem_map, Strike.mk.injEq]
  constructor
  · rintro ⟨⟨c, byTick⟩, hc, ⟨tick', notes⟩, he, ⟨pitch', velocity'⟩, hn, rfl, rfl, rfl, rfl⟩
    simpa [Table.mem_entries_iff.mp hc, Table.mem_entries_iff.mp he] using
      Table.mem_entries_iff.mp hn
  · intro hget
    cases hc : r.strikes.get? channel with
    | none => simp [hc] at hget
    | some byTick =>
      cases he : byTick.get? tick with
      | none => simp [hc, he] at hget
      | some notes =>
        simp only [hc, he, Option.getD_some] at hget
        exact ⟨(channel, byTick), Table.mem_entries_iff.mpr hc, (tick, notes),
          Table.mem_entries_iff.mpr he, (pitch, velocity), Table.mem_entries_iff.mpr hget,
          rfl, rfl, rfl, rfl⟩

/-- In a well-formed recording some note is struck at each tick that is recorded for strikes. -/
theorem mem_strikesOn_iff (hrep : r.WellFormed) {channel tick : Int} :
    tick ∈ (r.strikesOn channel).keys ↔
      ∃ n ∈ r.allStrikes, n.channel = channel ∧ n.tick = tick := by
  constructor
  · intro hkey
    obtain ⟨notes, hnotes⟩ := Table.mem_keys_iff.mp hkey
    have hstruck := (hrep.struck channel (tick, notes) (Table.mem_entries_iff.mpr hnotes)).2
    obtain ⟨e, he⟩ := List.exists_mem_of_ne_nil _ hstruck.nonempty
    refine ⟨⟨channel, tick, e.1, e.2⟩, mem_allStrikes.mpr ?_, rfl, rfl⟩
    rw [struckAt, hnotes]
    exact Table.mem_entries_iff.mp he
  · rintro ⟨n, hn, rfl, rfl⟩
    rw [mem_allStrikes, struckAt] at hn
    cases hnotes : (r.strikesOn n.channel).get? n.tick with
    | none =>
      rw [hnotes] at hn
      cases hn
    | some notes => exact Table.mem_keys_iff.mpr ⟨notes, hnotes⟩

/-- No strike of a well-formed recording lies before the start. -/
theorem tick_nonneg (hrep : r.WellFormed) {n : Strike} (h : n ∈ r.allStrikes) : 0 ≤ n.tick := by
  obtain ⟨notes, hnotes⟩ := Table.mem_keys_iff.mp ((mem_strikesOn_iff hrep).mpr ⟨n, h, rfl, rfl⟩)
  exact (hrep.struck _ _ (Table.mem_entries_iff.mpr hnotes)).1

/-- The strikes of a recording are distinct. -/
theorem nodup_allStrikes (r : Recording) : r.allStrikes.Nodup := by
  refine nodup_flatMap_of_key Strike.channel (nodup_keys _) (fun c _ => ?_) ?_
  · refine nodup_flatMap_of_key Strike.tick (nodup_keys _) (fun e _ => ?_) ?_
    · refine List.Nodup.of_map Strike.pitch ?_
      rw [List.map_map]
      exact nodup_keys e.2
    · rintro e _ n hn
      obtain ⟨_, _, rfl⟩ := List.mem_map.mp hn
      rfl
  · rintro c _ n hn
    obtain ⟨e, _, hn⟩ := List.mem_flatMap.mp hn
    obtain ⟨_, _, rfl⟩ := List.mem_map.mp hn
    rfl

/-- The global commands of a recording are distinct. -/
theorem nodup_allCommands (r : Recording) : r.allCommands.Nodup := by
  refine nodup_flatMap_of_key Prod.fst (nodup_keys _) (fun e _ => ?_) ?_
  · refine List.Nodup.of_map (fun command => command.2.1) ?_
    rw [List.map_map]
    exact nodup_keys e.2
  · rintro e _ command hcommand
    obtain ⟨_, _, rfl⟩ := List.mem_map.mp hcommand
    rfl

/-- A tick has global commands if it is one of the ticks with global commands. -/
theorem mem_globalTicks {tick : Int} :
    tick ∈ r.globalTicks ↔ (r.commandsAt tick).entries ≠ [] := by
  rw [globalTicks, commandsAt]
  simp only [List.mem_map, List.mem_filter, Bool.not_eq_true', ← Bool.not_eq_true,
    Table.isEmpty_iff]
  constructor
  · rintro ⟨⟨tick', commands⟩, ⟨he, hne⟩, rfl⟩
    simpa [Table.mem_entries_iff.mp he] using hne
  · intro hne
    cases hget : r.globals.get? tick with
    | none => simp [hget, Table.empty] at hne
    | some commands =>
      exact ⟨(tick, commands), ⟨Table.mem_entries_iff.mpr hget, by simpa [hget] using hne⟩, rfl⟩

/-- All global commands are those of the boundaries, if there is none before the start. -/
theorem allCommands_eq (hstart : ∀ tick ∈ r.globals.keys, 0 ≤ tick) :
    r.allCommands = r.boundaries.flatMap (fun tick =>
      (r.commandsAt tick).entries.map (fun command => (tick, command))) := by
  have hticks : r.allCommands = r.globalTicks.flatMap (fun tick =>
      (r.commandsAt tick).entries.map (fun command => (tick, command))) := by
    rw [globalTicks, List.flatMap_map, flatMap_filter_of_nil, allCommands]
    · refine List.flatMap_congr (fun e he => ?_)
      simp only [commandsAt, Table.mem_entries_iff.mp he, Option.getD_some]
    · intro e he hempty
      have hnil : e.2.entries = [] := by simpa [Table.isEmpty_iff] using hempty
      simp [commandsAt, Table.mem_entries_iff.mp he, hnil]
  have hascending : r.globalTicks.Pairwise (· < ·) := List.pairwise_map.mpr
    (r.globals.ascending.filter _)
  have hnonneg : ∀ tick ∈ r.globalTicks, 0 ≤ tick := by
    intro tick htick
    obtain ⟨e, he, rfl⟩ := List.mem_map.mp htick
    exact hstart e.1 (List.mem_map.mpr ⟨e, (List.mem_filter.mp he).1, rfl⟩)
  rw [hticks, boundaries]
  refine flatMap_ascending hascending hnonneg (fun hzero => ?_)
  rw [mem_globalTicks, not_not] at hzero
  rw [hzero, List.map_nil]

/-! ### Strikes of slices -/

/-- The last bounds end at the end of the sequence, or after their begin if that is later. -/
theorem exists_last (r : Recording) :
    ∃ last, r.bounds.getLast? = some last ∧ last.2 = r.sliceEnd ∧
      last.2 = max r.lastTick (last.1 + 1) := by
  have hpos := r.bounds_length_pos
  have hlast : r.bounds.getLast? = some r.bounds[r.bounds.length - 1] := by
    rw [List.getLast?_eq_getElem?, List.getElem?_eq_getElem]
  have hend := r.last_bounds (by omega)
  refine ⟨_, hlast, hend, hend.trans ?_⟩
  rw [sliceEnd, ← map_fst_bounds, List.getLast?_map, hlast]
  rfl

/-- No bounds end after the last ones. -/
theorem snd_le_sliceEnd {b : Int × Int} (hb : b ∈ r.bounds) : b.2 ≤ r.sliceEnd := by
  obtain ⟨last, hlast, hend, -⟩ := r.exists_last
  exact hend ▸ r.contiguous_bounds.snd_le_last hb hlast

/-- The last slice ends where the last bounds do. -/
theorem HasSlices.exists_last {slices : List Slice} (h : r.HasSlices slices) :
    ∃ s, slices.getLast? = some s ∧ s.endTick = r.sliceEnd ∧
      s.endTick = max r.lastTick (s.beginTick + 1) := by
  obtain ⟨last, hlast, hend, hmax⟩ := r.exists_last
  rw [← h.bounds, List.getLast?_map] at hlast
  obtain ⟨s, hs, rfl⟩ := Option.map_eq_some_iff.mp hlast
  exact ⟨s, hs, hend, hmax⟩

/-- The slice that is the last one ends where the last bounds do. -/
theorem HasSlices.endTick_eq {slices : List Slice} (h : r.HasSlices slices) {s : Slice}
    (hlast : slices.getLast? = some s) : s.endTick = r.sliceEnd := by
  obtain ⟨s', hlast', hend, -⟩ := h.exists_last
  exact Option.some.inj (hlast'.symm.trans hlast) ▸ hend

/-- A tick past the end belongs to the last slice. -/
theorem owner_of_le {tick : Int} (h : r.sliceEnd ≤ tick) : r.owner tick = r.bounds.length - 1 := by
  have hnone : r.emptySlices.findIdx? (fun s => s.contains tick) = none := by
    apply List.findIdx?_eq_none_iff.mpr
    intro s hs
    have hbounds : s.bounds ∈ r.bounds := r.map_bounds_emptySlices ▸ List.mem_map_of_mem hs
    have hle : s.endTick ≤ r.sliceEnd := snd_le_sliceEnd hbounds
    simp only [Slice.contains, decide_eq_false_iff_not]
    omega
  rw [owner, Slice.ownerIndex, hnone, Option.getD_none, length_emptySlices]

/-- The strikes of a slice are those of the recording that belong to it. -/
theorem HasSlice.mem_allStrikes (hrep : r.WellFormed) {i : Nat} {s : Slice} (h : r.HasSlice i s)
    {n : Strike} : n ∈ s.allStrikes ↔ r.owner n.tick = i ∧ n ∈ r.allStrikes := by
  rw [Recording.mem_allStrikes, Slice.allStrikes]
  simp only [List.mem_flatMap, List.mem_map, List.mem_finRange, true_and]
  constructor
  · rintro ⟨lane, ⟨tick, e⟩, he, ⟨pitch, note⟩, hn, rfl⟩
    obtain ⟨howner, hevent⟩ := h.mem_timeline.mp he
    have hget := Table.mem_entries_iff.mp hn
    rw [get?_struck hevent] at hget
    obtain ⟨velocity, hvelocity, rfl⟩ := Option.map_eq_some_iff.mp hget
    exact ⟨howner, hvelocity⟩
  · rintro ⟨howner, hget⟩
    obtain ⟨channel, tick, pitch, velocity⟩ := n
    dsimp only at howner hget
    cases hnotes : (r.strikesOn channel).get? tick with
    | none =>
      rw [struckAt, hnotes] at hget
      cases hget
    | some notes =>
      have hkey : tick ∈ (r.strikesOn channel).keys := Table.mem_keys_iff.mpr ⟨notes, hnotes⟩
      have hchannel : channel ∈ r.strikes.keys :=
        Table.mem_keys_iff.mpr ⟨_, Table.get?_of_mem_keys hkey⟩
      obtain ⟨lane, rfl, _⟩ := Channel.lane_of_mem (hrep.strikes channel hchannel)
      have hevent : r.eventAt s lane.val tick = some
          { change := tick ∈ r.playedChanges lane.val
            notes := some (sliceNotes s lane.val tick notes) } := by
        rw [eventAt, hnotes]
      have hstruck := get?_struck hevent pitch
      rw [hget] at hstruck
      exact ⟨lane, _, h.mem_timeline.mpr ⟨howner, hevent⟩, _,
        Table.mem_entries_iff.mpr hstruck, rfl⟩

/-- The strikes of a slice are distinct. -/
theorem HasSlice.nodup_allStrikes {i : Nat} {s : Slice} (h : r.HasSlice i s) :
    s.allStrikes.Nodup := by
  refine nodup_flatMap_of_key Strike.channel (k := fun lane : Channel => (lane.val : Int)) ?_
    (fun lane _ => ?_) ?_
  · refine (List.nodup_finRange _).map ?_
    intro lane lane' heq
    exact Fin.ext (Int.ofNat_inj.mp heq)
  · refine nodup_flatMap_of_key (k := Prod.fst) Strike.tick ?_ (fun e _ => ?_) ?_
    · exact (List.pairwise_map.mpr (h.timeline_pairwise lane)).imp Int.ne_of_lt
    · refine List.Nodup.of_map Strike.pitch ?_
      rw [List.map_map]
      exact nodup_keys e.2.struck
    · rintro e _ n hn
      obtain ⟨_, _, rfl⟩ := List.mem_map.mp hn
      rfl
  · rintro lane _ n hn
    obtain ⟨e, _, hn⟩ := List.mem_flatMap.mp hn
    obtain ⟨_, _, rfl⟩ := List.mem_map.mp hn
    rfl

/-- Slices that cut a recording exactly. -/
structure ExactCut (r : Recording) (slices : List Slice) : Prop where
  /-- No slice can be changed any more. -/
  frozen : ∀ s ∈ slices, s.frozen = true
  /-- Slices begin at the start and at every later tick with global commands, in order. -/
  begins : ∃ ticks, slices.map Slice.beginTick = 0 :: ticks ∧ ticks.Pairwise (· < ·) ∧
    ∀ tick, tick ∈ ticks ↔ 0 < tick ∧ (r.commandsAt tick).entries ≠ []
  /-- Each slice ends where the next one begins. -/
  joined : slices.IsChain (fun s next => s.endTick = next.beginTick)
  /-- The last slice ends at the end of the sequence, or after its begin if that is later, and every
  tick before lies in exactly one slice. -/
  covered : ∃ last, slices.getLast? = some last ∧
    last.endTick = max r.lastTick (last.beginTick + 1) ∧
    ∀ tick, 0 ≤ tick → tick < last.endTick → slices.countP (fun s => s.contains tick) = 1
  /-- Each slice has the global commands at its begin. -/
  commands : ∀ s ∈ slices, s.globals = r.commandsAt s.beginTick
  /-- Together the slices have all global commands in their order, each of them once. -/
  allCommands : slices.flatMap (fun s =>
    s.globals.entries.map (fun command => (s.beginTick, command))) = r.allCommands ∧
      r.allCommands.Nodup
  /-- The ticks of timelines ascend. -/
  ascending : ∀ s ∈ slices, ∀ lane : Channel,
    (s.timelines.get lane).Pairwise (fun a b => a.1 < b.1)
  /-- Together the timelines have all strikes. -/
  strikes : (slices.flatMap Slice.allStrikes).Perm r.allStrikes
  /-- Each strike occurs once only. -/
  distinct : (slices.flatMap Slice.allStrikes).Nodup
  /-- A strike is in the slice that contains its tick, past the end in the last one. -/
  placed : ∀ s ∈ slices, ∀ n ∈ s.allStrikes,
    s.contains n.tick = true ∨ slices.getLast? = some s ∧ s.endTick ≤ n.tick

/-- A slice of a recording whose channels have lanes is one between two of its bounds, filled with
what belongs to it. -/
theorem exists_filled_of_range (hrange : ∀ c ∈ r.channels, 0 ≤ c ∧ c ≤ 15) {slices : List Slice}
    (hok : r.slices = .ok slices) {s : Slice} (hs : s ∈ slices) :
    ∃ b ∈ r.bounds, ∃ belongs, s = r.filled belongs (r.emptySlice b) := by
  rw [slices_eq hrange] at hok
  cases hok
  obtain ⟨e, he, rfl⟩ := List.mem_map.mp hs
  obtain ⟨b, hb, heq⟩ := List.mem_map.mp (List.fst_mem_of_mem_zipIdx he)
  exact ⟨b, hb, _, by rw [heq]⟩

/-- A slice of a recording is one between two bounds, filled with what belongs to it. -/
theorem exists_filled (hrep : r.WellFormed) {slices : List Slice} (hok : r.slices = .ok slices)
    {s : Slice} (hs : s ∈ slices) :
    ∃ b belongs, s = r.filled belongs (r.emptySlice b) := by
  obtain ⟨b, _, belongs, heq⟩ := exists_filled_of_range (fun _ => hrep.channels) hok hs
  exact ⟨b, belongs, heq⟩

/-- A slice of a recording has the global commands at its begin. -/
theorem globals_of_mem (hrep : r.WellFormed) {slices : List Slice} (hok : r.slices = .ok slices)
    {s : Slice} (hs : s ∈ slices) : s.globals = r.commandsAt s.beginTick := by
  obtain ⟨b, belongs, rfl⟩ := exists_filled hrep hok hs
  rfl

namespace HasSlices

variable {slices : List Slice}

/-- The slices begin at the boundaries. -/
theorem map_beginTick (h : r.HasSlices slices) : slices.map Slice.beginTick = r.boundaries := by
  rw [← map_fst_bounds, ← h.bounds, List.map_map]
  rfl

/-- Together the timelines of all slices have exactly the strikes of the recording. -/
theorem mem_allStrikes (hrep : r.WellFormed) (h : r.HasSlices slices) {n : Strike} :
    n ∈ slices.flatMap Slice.allStrikes ↔ n ∈ r.allStrikes := by
  rw [List.mem_flatMap]
  constructor
  · rintro ⟨s, hs, hn⟩
    obtain ⟨i, _, hslice⟩ := h.exists_place hs
    exact ((hslice.mem_allStrikes hrep).mp hn).2
  · intro hn
    have howner : r.owner n.tick < slices.length := by
      rw [← List.length_map Slice.bounds, h.bounds]
      exact r.owner_lt n.tick
    have hget := List.getElem?_eq_getElem howner
    have hslice := h.hasSlice (slices[r.owner n.tick], r.owner n.tick)
      (List.mk_mem_zipIdx_iff_getElem?.mpr hget)
    exact ⟨_, List.getElem_mem howner, (hslice.mem_allStrikes hrep).mpr ⟨rfl, hn⟩⟩

/-- The strikes of different slices are different. -/
theorem nodup_allStrikes (hrep : r.WellFormed) (h : r.HasSlices slices) :
    (slices.flatMap Slice.allStrikes).Nodup := by
  refine nodup_flatMap_of_key (k := fun s => some s.beginTick)
    (fun n => r.boundaries[r.owner n.tick]?) ?_ (fun s hs => ?_) (fun s hs n hn => ?_)
  · have hbegins : (slices.map Slice.beginTick).Nodup := by
      rw [h.map_beginTick]
      exact r.boundaries_pairwise.imp Int.ne_of_lt
    have hsome := hbegins.map (f := some) (fun a b => Option.some.inj)
    rwa [List.map_map] at hsome
  · obtain ⟨i, _, hslice⟩ := h.exists_place hs
    exact hslice.nodup_allStrikes
  · obtain ⟨i, hget, hslice⟩ := h.exists_place hs
    rw [((hslice.mem_allStrikes hrep).mp hn).1, ← h.map_beginTick, List.getElem?_map, hget]
    rfl

/-- A tick lies inside the slice to which it belongs, or past the end of the last slice. -/
theorem contains_or_last (h : r.HasSlices slices) {s : Slice} {tick : Int} (hstart : 0 ≤ tick)
    (hget : slices[r.owner tick]? = some s) (hslice : r.HasSlice (r.owner tick) s) :
    s.contains tick = true ∨ slices.getLast? = some s ∧ s.endTick ≤ tick := by
  by_cases hin : tick < r.sliceEnd
  · obtain ⟨hplace, hbegin, hend⟩ := mem_owner_of_lt_sliceEnd hstart hin
    have hbounds := hslice.bounds
    rw [List.getElem?_eq_getElem hplace, Option.some.injEq] at hbounds
    rw [hbounds] at hbegin hend
    exact Or.inl (decide_eq_true ⟨hbegin, hend⟩)
  · have hpast : r.sliceEnd ≤ tick := by omega
    have hle : s.endTick ≤ r.sliceEnd := snd_le_sliceEnd hslice.bounds_mem
    rw [owner_of_le hpast, ← h.bounds, List.length_map, ← List.getLast?_eq_getElem?] at hget
    exact Or.inr ⟨hget, by omega⟩

/-- The strikes of a slice lie inside it, or past the end in the last slice. -/
theorem placed (hrep : r.WellFormed) (h : r.HasSlices slices) {s : Slice} (hs : s ∈ slices)
    {n : Strike} (hn : n ∈ s.allStrikes) :
    s.contains n.tick = true ∨ slices.getLast? = some s ∧ s.endTick ≤ n.tick := by
  obtain ⟨i, hget, hslice⟩ := h.exists_place hs
  obtain ⟨rfl, hstrike⟩ := (hslice.mem_allStrikes hrep).mp hn
  exact h.contains_or_last (tick_nonneg hrep hstrike) hget hslice

end HasSlices

/-- **Slicing is exact.** A recording that is read from a document is cut into slices without a
failure, step by step and at once alike. The slices cover the ticks before their end once each, have
all global commands where they are given, and hold every strike exactly once. -/
theorem slices_exact {document : Json} (hdocument : ofDocument document = .ok r) :
    ∃ slices, r.slices = .ok slices ∧
      r.cut = .ok { slices, warnings := r.cutWarnings } ∧ r.ExactCut slices := by
  have hbuilt := ofDocument_built hdocument
  have hrep := hbuilt.wellFormed
  obtain ⟨slices, hslices, hhas⟩ := exists_slices hrep
  refine ⟨slices, hslices, cut_eq hslices, ?_⟩
  have hcommands := fun s (hs : s ∈ slices) => globals_of_mem hrep hslices hs
  constructor
  case frozen =>
    intro s hs
    obtain ⟨b, belongs, rfl⟩ := exists_filled hrep hslices hs
    rfl
  case begins =>
    refine ⟨_, hhas.map_beginTick, r.boundaries_pairwise.tail, fun tick => ?_⟩
    rw [List.mem_filter, mem_globalTicks, decide_eq_true_eq, and_comm]
  case joined =>
    have hchain := r.contiguous_bounds.isChain
    rw [← hhas.bounds, List.isChain_map] at hchain
    exact hchain
  case covered =>
    obtain ⟨s, hs, hend, heq⟩ := hhas.exists_last
    refine ⟨s, hs, heq, fun tick hstart hbefore => ?_⟩
    have hcount := r.contiguous_bounds.countP_within hstart
      (by rw [← hhas.bounds, List.getLast?_map, hs]; rfl) hbefore
    rwa [← hhas.bounds, List.countP_map] at hcount
  case commands => exact hcommands
  case allCommands =>
    refine ⟨?_, r.nodup_allCommands⟩
    rw [allCommands_eq (fun tick => hbuilt.globals_nonneg), ← hhas.map_beginTick,
      List.flatMap_map]
    exact List.flatMap_congr (fun s hs => by rw [hcommands s hs])
  case ascending =>
    intro s hs lane
    obtain ⟨i, _, hslice⟩ := hhas.exists_place hs
    exact hslice.timeline_pairwise lane
  case strikes =>
    exact (List.perm_ext_iff_of_nodup (hhas.nodup_allStrikes hrep) r.nodup_allStrikes).mpr
      (fun n => hhas.mem_allStrikes hrep)
  case distinct => exact hhas.nodup_allStrikes hrep
  case placed => exact fun s hs n hn => hhas.placed hrep hs hn

/-- A strike past a declared end that lies before the last command, and a strike on another channel
at a command. -/
theorem slices_exact_past_end :
    ∃ r slices,
      ofDocument (.obj
        [("resolution", .int 480), ("end_tick", .int 100),
          ("channels", .obj
            [("0", .obj [("notes", .arr
                [.obj [("tick", .int 960), ("note", .int 60), ("length", .int 480)]])]),
              ("9", .obj [("notes", .arr
                [.obj [("tick", .int 480), ("note", .int 38), ("length", .int 60)]])])]),
          ("globals", .arr [.obj [("tick", .int 480), ("tempo", .int 90)]])]) = .ok r ∧
      r.allStrikes = [⟨0, 960, 60, 100⟩, ⟨9, 480, 38, 100⟩] ∧
      r.slices = .ok slices ∧ r.cut = .ok { slices, warnings := r.cutWarnings } ∧
      r.ExactCut slices := by
  obtain ⟨r, hdocument, hr⟩ := exists_eq_ok (show (ofDocument (.obj
      [("resolution", .int 480), ("end_tick", .int 100),
        ("channels", .obj
          [("0", .obj [("notes", .arr
              [.obj [("tick", .int 960), ("note", .int 60), ("length", .int 480)]])]),
            ("9", .obj [("notes", .arr
              [.obj [("tick", .int 480), ("note", .int 38), ("length", .int 60)]])])]),
        ("globals", .arr [.obj [("tick", .int 480), ("tempo", .int 90)]])])).toOption.any
      (fun r => r.allStrikes = [⟨0, 960, 60, 100⟩, ⟨9, 480, 38, 100⟩]) = true by decide +kernel)
  obtain ⟨slices, hslices, hcut, hexact⟩ := slices_exact hdocument
  exact ⟨r, slices, hdocument, of_decide_eq_true hr, hslices, hcut, hexact⟩

end Recording

end Transcription
