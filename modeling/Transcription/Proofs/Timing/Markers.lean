import Transcription.Proofs.Score.Steps
import Transcription.Proofs.Timing.Run

/-!
# Markers and jumps

The begin of a slice is marked once at most, under a part whose cursor is there. A part that is
behind jumps to the marker while the slice is written, and is not behind any more; so it jumps to
each marker once at most, always forward, and no cursor ever falls.
-/

namespace Transcription

open Writing

/-! ### The slice of an action -/

/-- An element of an appended list lies in the first list or in the second. -/
private theorem split_append {α : Type} {xs ys before after : List α} {a : α}
    (hsplit : xs ++ ys = before ++ a :: after) :
    (∃ l, xs = before ++ a :: l) ∨ ∃ l, before = xs ++ l ∧ ys = l ++ a :: after := by
  rcases List.append_eq_append_iff.mp hsplit with ⟨l, hl, hrest⟩ | ⟨l, hl, hrest⟩
  · exact .inr ⟨l, hl, hrest⟩
  · cases l with
    | nil => exact .inr ⟨[], by simpa using hl.symm, by simpa using hrest.symm⟩
    | cons x l =>
      obtain ⟨rfl, _⟩ := List.cons.inj hrest
      exact .inl ⟨l, hl⟩

/-- The numbers begin with that of the first slice. -/
private theorem split_zipIdx {p : Plan} {slices : List Slice} {m : Nat}
    {before after : List Action} {a : Action}
    (hsplit : (slices.zipIdx m).flatMap p.sliceActions = before ++ a :: after) :
    ∃ slice, ∃ k : Nat, slices[k]? = some slice ∧
      (a = .beginSlice slice (m + k : Nat) ∧
          before.filterMap Action.number? = (List.range' m k).map Nat.cast ∨
        a ∈ p.content slice ∧
          before.filterMap Action.number? = (List.range' m (k + 1)).map Nat.cast) := by
  induction slices generalizing m before with
  | nil => simp at hsplit
  | cons s slices ih =>
    have hnumbers {l : List Action} (hl : l ⊆ p.content s) : l.filterMap Action.number? = [] :=
      List.filterMap_eq_nil_iff.mpr (fun b hb => number?_content (hl hb))
    have hbegin (l : List Action) : (Action.beginSlice s (m : Int) :: l).filterMap Action.number? =
        (m : Int) :: l.filterMap Action.number? := rfl
    rw [List.zipIdx_cons, List.flatMap_cons, Plan.sliceActions_eq, List.cons_append] at hsplit
    cases before with
    | nil =>
      obtain ⟨rfl, _⟩ := List.cons.inj hsplit
      exact ⟨s, 0, rfl, .inl ⟨rfl, rfl⟩⟩
    | cons b before =>
      rw [List.cons_append] at hsplit
      obtain ⟨rfl, htail⟩ := List.cons.inj hsplit
      -- the action lies in the content of the first slice or in a later slice
      rcases split_append htail with ⟨l, hcontent⟩ | ⟨l, rfl, hrest⟩
      · refine ⟨s, 0, rfl, .inr ⟨by simp [hcontent], ?_⟩⟩
        have hnone := hnumbers (l := before) (by simp [hcontent])
        rw [hbegin, hnone]
        rfl
      · obtain ⟨slice, k, hget, hplace⟩ := ih hrest
        refine ⟨slice, k + 1, hget, ?_⟩
        rw [hbegin, List.filterMap_append, hnumbers (fun _ h => h), List.nil_append]
        rcases hplace with ⟨ha, hl⟩ | ⟨ha, hl⟩
        · refine .inl ⟨?_, by rw [hl]; rfl⟩
          rw [ha, Nat.add_right_comm]
          rfl
        · exact .inr ⟨ha, by rw [hl]; rfl⟩

/-- Every action begins a slice under its number, when the slices before it have been begun, or it
belongs to the content of the slice that was begun last. -/
theorem Plan.split_actions {p : Plan} {slices : List Slice} {before after : List Action}
    {a : Action} (hsplit : p.actions slices = before ++ a :: after) :
    ∃ slice, ∃ k : Nat, slices[k]? = some slice ∧
      (a = .beginSlice slice k ∧
          before.filterMap Action.number? = (List.range k).map Nat.cast ∨
        a ∈ p.content slice ∧
          before.filterMap Action.number? = (List.range (k + 1)).map Nat.cast) := by
  rw [actions_eq] at hsplit
  obtain ⟨slice, k, hget, hplace⟩ := split_zipIdx hsplit
  refine ⟨slice, k, hget, ?_⟩
  simpa only [List.range_eq_range', Nat.zero_add] using hplace

/-- A chord lies in the slice that was begun last. -/
theorem Plan.place_chord {p : Plan} {slices : List Slice} {before after : List Action} {c : Chord}
    (hsplit : p.actions slices = before ++ .chord c :: after) :
    ∃ k : Nat, slices[k]? = some c.slice ∧
      (before.filterMap Action.number?).getLast? = some (k : Int) := by
  obtain ⟨slice, k, hget, ⟨hbegin, _⟩ | ⟨hcontent, hnumbers⟩⟩ := split_actions hsplit
  · cases hbegin
  · refine ⟨k, ?_, ?_⟩
    · rcases mem_content hcontent with h | h | ⟨_, _, h⟩ | ⟨channel, g, _, _, h⟩ <;> cases h
      exact hget
    · rw [hnumbers, List.range_succ, List.map_append]
      exact List.getLast?_concat

/-! ### Markers and jumps of a run -/

/-- After some actions every marker is that of a slice that was begun, none of them twice. No part
has jumped to a marker twice, and a part that has jumped to the marker of the present slice is not
behind its begin. -/
structure Plan.Marked (p : Plan) (slices : List Slice) (before : List Action) (s : Score) :
    Prop where
  slice : ∀ n, (before.filterMap Action.number?).getLast? = some n → s.slice = n
  markers : s.lines.toList.filterMap Line.marks? = s.markers
  nodup : s.markers.Nodup
  begun : ∀ n ∈ s.markers, 0 < n ∧ n ∈ before.filterMap Action.number?
  jumps : (Reading.jumps none s.lines.toList).Nodup
  jumped : ∀ jump ∈ Reading.jumps none s.lines.toList, jump.2 ∈ s.markers ∧
    ∀ id, jump.1 = some id → jump.2 = s.slice → ∀ slice, slices[jump.2.toNat]? = some slice →
      slice.beginTick ≤ (s.part id).cursor

/-- The begin of a slice that is not marked adds lines with its marker or with none, and no jump. -/
theorem Score.Begun.exists_new {slice : Slice} {number : Int} {s s' : Score}
    (h : Begun slice number s s') (hunmarked : number ∉ s.markers) :
    ∃ new, s'.lines.toList = s.lines.toList ++ new ∧ (∀ l ∈ new, l.jumps? = none) ∧
      (new.filterMap Line.marks? = [] ∧ s'.markers = s.markers ∨
        0 < number ∧ new.filterMap Line.marks? = [number] ∧
          s'.markers = s.markers ++ [number]) := by
  obtain ⟨lead, tail, hplain, _, hlines⟩ := h.lines
  have hmarks : (lead ++ tail).filterMap Line.marks? = [] :=
    List.filterMap_eq_nil_iff.mpr (fun l hl => (hplain l hl).marks)
  rw [List.filterMap_append, List.append_eq_nil_iff] at hmarks
  rcases hlines with ⟨hpos, _, hlines, hmarkers, _⟩ | ⟨_, hlines, hmarkers⟩
  · rw [if_neg hunmarked] at hmarkers
    refine ⟨_, hlines, fun l hl => ?_, .inr ⟨hpos, ?_, hmarkers⟩⟩
    · rcases List.mem_append.mp hl with hl | hl
      · exact (hplain l (List.mem_append_left _ hl)).jumps
      · rcases List.mem_cons.mp hl with rfl | hl
        · rfl
        · exact (hplain l (List.mem_append_right _ hl)).jumps
    · rw [List.filterMap_append, hmarks.1]
      exact congrArg (List.cons number) hmarks.2
  · refine ⟨_, hlines, fun l hl => (hplain l hl).jumps, .inl ⟨?_, hmarkers⟩⟩
    rw [List.filterMap_append, hmarks.1, hmarks.2, List.nil_append]

/-- The lines by which the part of a chord is selected. -/
theorem Score.Chorded.exists_lead {p : Plan} {c : Chord} {id : PartId}
    {s selected entered s' : Score} (h : Chorded p c id s selected entered s') :
    ∃ lead, selected.lines.toList = s.lines.toList ++ lead ∧
      (∀ l ∈ lead, l.marks? = none ∧ l.jumps? = none) ∧
      Reading.selected s.current lead = some id ∧ selected.slice = s.slice ∧
      selected.markers = s.markers ∧ ∀ id', (s.part id').cursor ≤ (selected.part id').cursor := by
  rcases h.part with ⟨hcurrent, _, hextends⟩ | ⟨_, hswitched⟩
  · exact ⟨[], hextends.lines, by simp, hcurrent, hextends.slice, hextends.markers,
      hextends.cursor⟩
  · refine ⟨_, hswitched.lines, quiet_switch id s, ?_, hswitched.slice, hswitched.markers,
      fun id' => Int.le_of_eq (hswitched.cursor id').symm⟩
    by_cases hid : id ∈ s.roster.ids <;> simp [hid, Reading.selected, Line.selects?]

/-- The selected part of a score is that of its lines. -/
theorem Agrees.selected_lines {t : LengthTables} {s : Score} {R : Reading} (h : Agrees t s R) :
    Reading.selected none s.lines.toList = s.current := by
  have hread : ({} : Reading).lines? t s.lines.toList = some R := h.reads
  rw [← h.current, (Reading.follows_of_lines? hread).2.1]

namespace Plan.Marked

variable {p : Plan} {slices : List Slice} {before : List Action} {a : Action} {s s' : Score}
  {new : List Line}

/-- Lines without markers are added, and parts may move on. Where a part jumps, it goes to the
marker of the present slice, is behind its begin before and is not afterwards. -/
theorem addLines (h : p.Marked slices before s)
    (hlines : s'.lines.toList = s.lines.toList ++ new) (hmarks : ∀ l ∈ new, l.marks? = none)
    (hnodup : (Reading.jumps (Reading.selected none s.lines.toList) new).Nodup)
    (hnew : ∀ jump ∈ Reading.jumps (Reading.selected none s.lines.toList) new,
      jump.2 = s.slice ∧ s.slice ∈ s.markers ∧ ∃ id slice, jump.1 = some id ∧
        slices[s.slice.toNat]? = some slice ∧ (s.part id).cursor < slice.beginTick ∧
        slice.beginTick ≤ (s'.part id).cursor)
    (hslice : s'.slice = s.slice) (hmarkers : s'.markers = s.markers)
    (hcursor : ∀ id, (s.part id).cursor ≤ (s'.part id).cursor) (hnumber : a.number? = none) :
    p.Marked slices (before ++ [a]) s' := by
  have hnumbers : (before ++ [a]).filterMap Action.number? = before.filterMap Action.number? := by
    simp [hnumber]
  have hjumps := Reading.jumps_append none s.lines.toList new
  rw [← hlines] at hjumps
  constructor
  case slice => rw [hnumbers, hslice]; exact h.slice
  case markers =>
    rw [hlines, List.filterMap_append, List.filterMap_eq_nil_iff.mpr hmarks, List.append_nil,
      h.markers, hmarkers]
  case nodup => rw [hmarkers]; exact h.nodup
  case begun => rw [hmarkers, hnumbers]; exact h.begun
  case jumps =>
    rw [hjumps, List.nodup_append]
    refine ⟨h.jumps, hnodup, fun jump hold jump' hjump heq => ?_⟩
    subst heq
    -- whoever has jumped to the present slice is not behind its begin
    obtain ⟨hnow, _, id, slice, hid, hget, hbehind, _⟩ := hnew jump hjump
    have := (h.jumped jump hold).2 id hid hnow slice (hnow ▸ hget)
    omega
  case jumped =>
    rw [hjumps, hmarkers, hslice]
    intro jump hjump
    rcases List.mem_append.mp hjump with hold | hjump
    · obtain ⟨hmarked, hpast⟩ := h.jumped jump hold
      refine ⟨hmarked, fun id hid hnow slice hget => ?_⟩
      exact Int.le_trans (hpast id hid hnow slice hget) (hcursor id)
    · obtain ⟨hnow, hmarked, id, slice, hid, hget, _, hreached⟩ := hnew jump hjump
      refine ⟨hnow ▸ hmarked, fun id' hid' _ slice' hget' => ?_⟩
      rw [hnow, hget] at hget'
      rw [hid] at hid'
      cases hget'
      cases hid'
      exact hreached

/-- Lines without markers and jumps are added, and parts may move on. -/
theorem addQuiet (h : p.Marked slices before s)
    (hlines : s'.lines.toList = s.lines.toList ++ new)
    (hquiet : ∀ l ∈ new, l.marks? = none ∧ l.jumps? = none) (hslice : s'.slice = s.slice)
    (hmarkers : s'.markers = s.markers) (hcursor : ∀ id, (s.part id).cursor ≤ (s'.part id).cursor)
    (hnumber : a.number? = none) : p.Marked slices (before ++ [a]) s' := by
  have hnone := Reading.jumps_eq_nil (fun l hl => (hquiet l hl).2)
    (Reading.selected none s.lines.toList)
  exact h.addLines hlines (fun l hl => (hquiet l hl).1) (by simp [hnone]) (by simp [hnone]) hslice
    hmarkers hcursor hnumber

/-- A slice is begun under a number that is new. -/
theorem beginSlice (h : p.Marked slices before s) {slice : Slice} {number : Int}
    (hbegun : Score.Begun slice number s s')
    (hnew : number ∉ before.filterMap Action.number?) :
    p.Marked slices (before ++ [.beginSlice slice number]) s' := by
  have hnumbers : (before ++ [Action.beginSlice slice number]).filterMap Action.number? =
      before.filterMap Action.number? ++ [number] := by simp [Action.number?]
  have hunmarked : number ∉ s.markers := fun hmem => hnew (h.begun number hmem).2
  obtain ⟨new, hlines, hsilent, hmarked⟩ := hbegun.exists_new hunmarked
  have hjumps : Reading.jumps none s'.lines.toList = Reading.jumps none s.lines.toList := by
    rw [hlines, Reading.jumps_append, Reading.jumps_eq_nil hsilent, List.append_nil]
  have hold {n : Int} (hn : n ∈ s.markers) : n ∈ s'.markers := by
    rcases hmarked with ⟨_, hmarkers⟩ | ⟨_, _, hmarkers⟩ <;> rw [hmarkers]
    · exact hn
    · exact List.mem_append_left _ hn
  constructor
  case slice =>
    intro n hn
    rw [hnumbers, List.getLast?_concat] at hn
    rw [hbegun.slice, Option.some.inj hn]
  case markers =>
    rw [hlines, List.filterMap_append, h.markers]
    rcases hmarked with ⟨hnone, hmarkers⟩ | ⟨_, hone, hmarkers⟩
    · rw [hnone, hmarkers, List.append_nil]
    · rw [hone, hmarkers]
  case nodup =>
    rcases hmarked with ⟨_, hmarkers⟩ | ⟨_, _, hmarkers⟩
    · rw [hmarkers]
      exact h.nodup
    · rw [hmarkers, ← List.concat_eq_append]
      exact h.nodup.concat hunmarked
  case begun =>
    intro n hn
    rw [hnumbers, List.mem_append, List.mem_singleton]
    have hbefore {n : Int} (hn : n ∈ s.markers) := h.begun n hn
    rcases hmarked with ⟨_, hmarkers⟩ | ⟨hpos, _, hmarkers⟩
    · obtain ⟨hpos, hmem⟩ := hbefore (hmarkers ▸ hn)
      exact ⟨hpos, .inl hmem⟩
    · rw [hmarkers] at hn
      rcases List.mem_append.mp hn with hn | hn
      · exact ⟨(hbefore hn).1, .inl (hbefore hn).2⟩
      · cases List.mem_singleton.mp hn
        exact ⟨hpos, .inr rfl⟩
  case jumps => rw [hjumps]; exact h.jumps
  case jumped =>
    rw [hjumps]
    intro jump hjump
    have hmem := (h.jumped jump hjump).1
    refine ⟨hold hmem, fun id _ hnow => ?_⟩
    -- nobody has jumped to a slice that is only begun now
    rw [hbegun.slice] at hnow
    exact absurd (hnow ▸ hmem) hunmarked

/-- A chord of the present slice is written. If its part jumps, it has been behind the begin of the
slice. -/
theorem chord (h : p.Marked slices before s) {c : Chord} {id : PartId} {selected entered : Score}
    (hchorded : Score.Chorded p c id s selected entered s')
    (hcurrent : Reading.selected none s.lines.toList = s.current)
    (hslice : slices[s.slice.toNat]? = some c.slice) :
    p.Marked slices (before ++ [.chord c]) s' := by
  obtain ⟨lead, hlead, hquiet, hselected, hslice₁, hmarkers₁, hcursor₁⟩ := hchorded.exists_lead
  obtain ⟨line, hjump, hextends⟩ := hchorded.line
  have hall := hchorded.approach.trans hextends
  have hlines : s'.lines.toList = s.lines.toList ++ (lead ++ [.chord line]) := by
    rw [hall.lines, hlead, List.append_assoc]
    rfl
  have hjumps : Reading.jumps (Reading.selected none s.lines.toList) (lead ++ [.chord line]) =
      (line.jump.map (fun n => (some id, n))).toList := by
    rw [Reading.jumps_append, hcurrent, hselected,
      Reading.jumps_eq_nil (fun l hl => (hquiet l hl).2)]
    exact List.append_nil _
  refine h.addLines hlines (fun l hl => ?_) ?_ ?_ (hall.slice.trans hslice₁)
    (hall.markers.trans hmarkers₁) (fun id' => Int.le_trans (hcursor₁ id') (hall.cursor id')) rfl
  · rcases List.mem_append.mp hl with hl | hl
    · exact (hquiet l hl).1
    · cases List.mem_singleton.mp hl
      rfl
  · rw [hjumps]
    cases line.jump <;> simp
  · intro jump hmem
    rw [hjumps, Option.mem_toList, Option.map_eq_some_iff] at hmem
    obtain ⟨n, hn, rfl⟩ := hmem
    rw [hjump, Chord.jump?] at hn
    split at hn
    · rename_i hbehind
      have hlanding := hchorded.landing
      rw [Chord.landing, if_pos hbehind] at hlanding
      rw [hslice₁, hmarkers₁] at hbehind
      refine ⟨(Option.some.inj hn).symm.trans hslice₁, hbehind.2, id, c.slice, rfl, hslice, ?_, ?_⟩
      · exact Int.lt_of_le_of_lt (hcursor₁ id) hbehind.1
      · exact Int.le_trans hlanding (hextends.cursor id)
    · cases hn

end Plan.Marked

/-! ### What every action does -/

/-- A chord is written after some actions. Its part is selected and jumps to the marker of the slice
if that is there and the part is behind it; then the line of the chord is added. No cursor falls on
the way, and a jump takes the part from before the begin of the slice to the begin. -/
structure Chord.Forward (p : Plan) (slices : List Slice) (before : List Action) (c : Chord)
    (id : PartId) (line : ChordLine) (s selected s' : Score) : Prop where
  selects : Writes (partFor p c.channel.val c.channel c.tick)
    (s.countTones c.channel.val c.tick c.tones) id selected
  under : Reading.selected none selected.lines.toList = some id
  jump : line.jump = (selected.jump c.slice id).1
  lines : ∃ lead, selected.lines.toList = s.lines.toList ++ lead ∧
    (∀ l ∈ lead, l.marks? = none ∧ l.jumps? = none) ∧
    s'.lines.toList = selected.lines.toList ++ [.chord line]
  cursor : ∀ id', (s.part id').cursor ≤ (selected.part id').cursor ∧
    (selected.part id').cursor ≤ ((selected.jump c.slice id).2.part id').cursor ∧
    ((selected.jump c.slice id).2.part id').cursor ≤ (s'.part id').cursor
  jumps : ∀ n, line.jump = some n → 1 ≤ n ∧ slices[n.toNat]? = some c.slice ∧
    (before.filterMap Action.number?).getLast? = some n ∧ .marker n ∈ s.lines.toList ∧
    (selected.part id).cursor < c.slice.beginTick ∧
    ((selected.jump c.slice id).2.part id).cursor = c.slice.beginTick

/-- What an action after some others does to markers and jumps: the begin of a slice may write its
marker, a chord may jump, and no other action does either. -/
def Action.Marking (p : Plan) (slices : List Slice) (before : List Action) (s s' : Score) :
    Action → Prop
  | beginSlice slice number => Score.Begun slice number s s'
  | chord c => ∃ id line selected, c.Forward p slices before id line s selected s'
  | _ => ∃ new, s'.lines.toList = s.lines.toList ++ new ∧
      ∀ l ∈ new, l.marks? = none ∧ l.jumps? = none

section Marking

variable {p : Plan} {slices : List Slice} {before rest : List Action} {a : Action} {s s' : Score}
  {R R' : Reading}

/-- A chord of a transcription goes forward. -/
theorem Plan.Marked.forward (h : p.Marked slices before s) (hagrees : Agrees p.tables s R)
    {c : Chord} (hsplit : p.actions slices = before ++ .chord c :: rest) {id : PartId}
    {selected entered : Score} (hchorded : Score.Chorded p c id s selected entered s')
    (hid : id ∈ s'.roster.ids) : ∃ line, c.Forward p slices before id line s selected s' := by
  obtain ⟨k, hget, hlast⟩ := place_chord hsplit
  obtain ⟨lead, hlead, hquiet, hselected, hslice, hmarkers, hcursor⟩ := hchorded.exists_lead
  obtain ⟨line, hjump, hextends⟩ := hchorded.line
  have hall := hchorded.approach.trans hextends
  obtain ⟨hjumped, halters⟩ := Score.jump_alters c id selected
  have hpart := halters.part_eq (hall.ids ▸ hid)
  refine ⟨line, hchorded.selects, ?_, hjump.trans hjumped.symm, ⟨lead, hlead, hquiet, hall.lines⟩,
    fun id' => ⟨hcursor id', ?_⟩, fun n hn => ?_⟩
  · rw [hlead, Reading.selected_append, hagrees.selected_lines, hselected]
  · rw [hpart]
    by_cases hself : id' = id
    · subst hself
      rw [if_pos rfl]
      exact ⟨c.le_landing id' selected, Int.le_trans hchorded.landing (hextends.cursor id')⟩
    · rw [if_neg hself]
      exact ⟨Int.le_refl _, hall.cursor id'⟩
  · rw [hjump, Chord.jump?] at hn
    split at hn
    · rename_i hbehind
      have hnumber : n = k := by
        rw [← Option.some.inj hn, hslice, h.slice k hlast]
      have hmem : n ∈ s.markers := by
        rw [← Option.some.inj hn, ← hmarkers]
        exact hbehind.2
      have hmarked : .marker n ∈ s.lines.toList := by
        rw [← h.markers] at hmem
        obtain ⟨l, hl, hmarks⟩ := List.mem_filterMap.mp hmem
        cases l with
        | marker slice => exact Option.some.inj hmarks ▸ hl
        | _ => cases hmarks
      refine ⟨(h.begun n hmem).1, hnumber ▸ hget, hnumber ▸ hlast, hmarked, hbehind.1, ?_⟩
      rw [hpart, if_pos rfl, Chord.landing, if_pos hbehind]
    · cases hn

/-- Every action of a transcription writes the markers and jumps that it should and keeps them in
order, and no cursor falls. -/
theorem Plan.Marked.step (h : p.Marked slices before s) (hp : p.Proper)
    (hslices : p.recording.HasSlices slices)
    (hsplit : p.actions slices = before ++ a :: rest) (hagrees : Agrees p.tables s R)
    (hagrees' : Agrees p.tables s' R') (hwrite : Writes (a.write p) s () s') :
    a.Marking p slices before s s' ∧ (∀ id, (s.part id).cursor ≤ (s'.part id).cursor) ∧
      p.Marked slices (before ++ [a]) s' := by
  cases a with
  | beginSlice slice number =>
    obtain ⟨_, rfl⟩ := Writes.unique hwrite (Writes.act _ s)
    have hbegun := Score.begun_beginSlice p slice number s
    refine ⟨hbegun, hbegun.cursor, h.beginSlice hbegun ?_⟩
    obtain ⟨_, k, _, ⟨hbegin, hnumbers⟩ | ⟨hcontent, _⟩⟩ := split_actions hsplit
    · cases hbegin
      rw [hnumbers]
      simp only [List.mem_map, List.mem_range, not_exists, not_and]
      omega
    · cases number?_content hcontent
  | globals slice =>
    obtain ⟨_, rfl⟩ := Writes.unique hwrite (Writes.act _ s)
    obtain ⟨new, hextends, hplain⟩ := Score.extends_addGlobals slice s
    have hquiet : ∀ l ∈ new, l.marks? = none ∧ l.jumps? = none :=
      fun l hl => ⟨(hplain l hl).marks, (hplain l hl).jumps⟩
    exact ⟨⟨new, hextends.lines, hquiet⟩, hextends.cursor, h.addQuiet hextends.lines hquiet
      hextends.slice hextends.markers hextends.cursor rfl⟩
  | blank =>
    obtain ⟨_, rfl⟩ := Writes.unique hwrite (Writes.act _ s)
    have hextends := Score.Extends.addLine .blank s
    have hquiet : ∀ l ∈ [Line.blank], l.marks? = none ∧ l.jumps? = none := by
      simp [Line.marks?, Line.jumps?]
    exact ⟨⟨_, hextends.lines, hquiet⟩, hextends.cursor, h.addQuiet hextends.lines hquiet
      hextends.slice hextends.markers hextends.cursor rfl⟩
  | change channel tick =>
    have hchange : Writes ((Action.change channel tick).write p) s () _ :=
      Writes.bind (writes_changePart hp channel tick s) (Writes.pure () _)
    obtain ⟨_, rfl⟩ := Writes.unique hwrite hchange
    have hswitched := Score.switched_change (p.recording.partAt channel tick) s
    have hcursor (id : PartId) := Int.le_of_eq (hswitched.cursor id).symm
    have hquiet := Score.quiet_switch (p.recording.partAt channel tick) s
    exact ⟨⟨_, hswitched.lines, hquiet⟩, hcursor, h.addQuiet hswitched.lines hquiet
      hswitched.slice hswitched.markers hcursor rfl⟩
  | chord c =>
    have hc : c.Valid p.tables := valid_actions hp hslices (.chord c) (by rw [hsplit]; simp)
    obtain ⟨id, selected, entered, hchorded⟩ := hagrees.chorded hp hc hwrite
    obtain ⟨line, hforward⟩ :=
      h.forward hagrees hsplit hchorded (hagrees'.selected id hchorded.current)
    obtain ⟨k, hget, hlast⟩ := place_chord hsplit
    refine ⟨⟨id, line, selected, hforward⟩, fun id' => ?_,
      h.chord hchorded hagrees.selected_lines ?_⟩
    · obtain ⟨hcomes, hjumps, hleaves⟩ := hforward.cursor id'
      omega
    · rw [h.slice k hlast]
      exact hget

end Marking

/-- **Markers are there before the jumps, and jumps go forward.** No slice is marked twice, and the
first one never. Every jump comes after its marker, and no part jumps to a marker twice. The begin
of a slice but the first is marked exactly if there is a part and none is past it, and then under a
part whose cursor is there. A jump is made in its slice by a part that is behind it and takes the
part to its begin; and no cursor ever falls. -/
theorem Recording.markers_before_jumps {document : Json} {r : Recording}
    (hdocument : Recording.ofDocument document = .ok r) (settings : Settings) :
    let p := Plan.of r settings
    ∃ slices s, r.slices = .ok slices ∧ p.score slices = .ok s ∧
      (s.lines.toList.filterMap Line.marks?).Nodup ∧
      (∀ n ∈ s.lines.toList.filterMap Line.marks?, 1 ≤ n) ∧
      (∀ before l after n, s.lines.toList = before ++ l :: after → l.jumps? = some n →
        .marker n ∈ before) ∧
      (Reading.jumps none s.lines.toList).Nodup ∧
      ∀ before a after, p.actions slices = before ++ a :: after → ∃ s₀ s₁,
        Writes (before.forM (Action.write p)) {} () s₀ ∧ Writes (a.write p) s₀ () s₁ ∧
        a.Marking p slices before s₀ s₁ ∧ ∀ id, (s₀.part id).cursor ≤ (s₁.part id).cursor := by
  intro p
  have hrep := Recording.ofDocument_wellFormed hdocument
  have hp : p.Proper := Plan.proper_of hrep settings
  obtain ⟨slices, hslices, hhas⟩ := Recording.exists_slices hrep
  have hstart : p.Marked slices [] {} := by
    constructor <;> simp [Reading.jumps]
  have hrun {before after : List Action} (hsplit : p.actions slices = before ++ after) :=
    @Agrees.run_done p hp _ (Plan.valid_actions hp hhas)
      (fun before s _ => p.Marked slices before s) hstart
      (fun hsplit hagrees hmarked hwrite hagrees' _ =>
        (hmarked.step hp hhas hsplit hagrees hagrees' hwrite).2.2) _ _ hsplit
  obtain ⟨s, R, hwrite, hagrees, hmarked⟩ := hrun (List.append_nil _).symm
  refine ⟨slices, s, hslices, Plan.score_eq_ok.mpr hwrite, ?_, ?_, ?_, hmarked.jumps, ?_⟩
  · rw [hmarked.markers]
    exact hmarked.nodup
  · intro n hn
    rw [hmarked.markers] at hn
    exact (hmarked.begun n hn).1
  · intro before l after n hlines hjump
    have hread : ({} : Reading).lines? p.tables s.lines.toList = some R := hagrees.reads
    rw [hlines] at hread
    exact Reading.marker_of_jump hread hjump
  · intro before a after hsplit
    obtain ⟨s₀, R₀, hbefore, hagrees₀, hmarked₀⟩ := hrun hsplit
    obtain ⟨s₁, R₁, hwrite₁, hagrees₁, _⟩ :=
      hagrees₀.perform hp (Plan.valid_actions hp hhas a (by rw [hsplit]; simp))
    obtain ⟨hmarking, hcursor, _⟩ := hmarked₀.step hp hhas hsplit hagrees₀ hagrees₁ hwrite₁
    exact ⟨s₀, s₁, hbefore, hwrite₁, hmarking, hcursor⟩

/-- The second channel is behind at the begin of the second slice and jumps to its marker. -/
theorem Recording.markers_before_jumps_behind :
    ∃ r slices s,
      Recording.ofDocument (.ofSequence
        [("0", [(0, 60, 480), (480, 64, 480)]), ("1", [(0, 48, 240), (600, 50, 240)])]
        [(480, 90)]) = .ok r ∧
      r.slices = .ok slices ∧ (Plan.of r {}).score slices = .ok s ∧
      s.lines.toList.filterMap Line.marks? = [1] ∧
      Reading.jumps none s.lines.toList = [(some ⟨1, 0⟩, 1)] ∧
      ∀ before l after n, s.lines.toList = before ++ l :: after → l.jumps? = some n →
        .marker n ∈ before := by
  obtain ⟨r, hdocument, hr⟩ := exists_eq_ok (show (Recording.ofDocument (.ofSequence
      [("0", [(0, 60, 480), (480, 64, 480)]), ("1", [(0, 48, 240), (600, 50, 240)])]
      [(480, 90)])).toOption.any
    (fun r => r.slices.toOption.any (fun slices =>
      ((Plan.of r {}).score slices).toOption.any (fun s =>
        s.lines.toList.filterMap Line.marks? = [1] ∧
          Reading.jumps none s.lines.toList = [(some ⟨1, 0⟩, 1)]))) = true by decide +kernel)
  obtain ⟨slices, hslices, hr⟩ := exists_eq_ok hr
  obtain ⟨s, hscore, hs⟩ := exists_eq_ok hr
  obtain ⟨hmarks, hjumps⟩ := of_decide_eq_true hs
  obtain ⟨slices', s', hslices', hscore', _, _, hbefore, _⟩ :=
    Recording.markers_before_jumps hdocument {}
  obtain rfl := Except.ok.inj (hslices.symm.trans hslices')
  obtain rfl := Except.ok.inj (hscore.symm.trans hscore')
  exact ⟨r, slices, s, hdocument, hslices, hscore, hmarks, hjumps, hbefore⟩

end Transcription
