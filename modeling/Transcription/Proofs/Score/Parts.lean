import Transcription.Proofs.Score.Steps
import Transcription.Proofs.Score.Turns

/-!
# Chords and their parts

A chord is written by the part that its channel plays then. This is the part of the channel's last
turn, and the declared parts are those of all turns. So every note is written under the part of the
program that plays it, and only parts that play are declared.
-/

namespace Transcription

open Writing

/-! ### Taking turns -/

/-- A part takes a turn: it is declared from then on, and its channel plays it. -/
structure Score.Takes (id : PartId) (s s' : Score) : Prop where
  lanes : s'.lanes = s.lanes.set id.channel (some id) id.channel.isLt
  ids : ∀ id', id' ∈ s'.roster.ids ↔ id' ∈ s.roster.ids ∨ id' = id

/-- Switching to a part is a turn of it. -/
theorem Score.Switched.takes {id : PartId} {s s' : Score} (h : Switched id s s') :
    Takes id s s' where
  lanes := h.lanes
  ids id' := by
    rw [h.ids]
    split
    · exact ⟨.inl, fun h => h.elim (fun h => h) (fun heq => by rwa [heq])⟩
    · rw [List.mem_append, List.mem_singleton]

/-- A chord is a turn of the part that sounds it. -/
theorem Score.Chorded.takes {p : Plan} {c : Chord} {id : PartId}
    {s selected entered s' : Score} (h : Chorded p c id s selected entered s')
    (hold : s.lanes.get c.channel = some id → id.channel = c.channel ∧ id ∈ s.roster.ids) :
    Takes id s s' := by
  obtain ⟨line, _, hline⟩ := h.line
  have hselected : Takes id s selected := by
    rcases h.part with ⟨_, hlane, hextends⟩ | ⟨_, hswitched⟩
    · obtain ⟨hchannel, hid⟩ := hold hlane
      have hsame : s.lanes.set id.channel (s.lanes.get id.channel) = s.lanes :=
        Vector.set_getElem_self id.channel.isLt
      rw [show s.lanes.get id.channel = some id by rw [hchannel, hlane]] at hsame
      refine ⟨hextends.lanes.trans hsame.symm, fun id' => ?_⟩
      rw [hextends.ids]
      exact ⟨.inl, fun h => h.elim (fun h => h) (fun heq => by rwa [heq])⟩
    · exact hswitched.takes
  refine ⟨?_, fun id' => ?_⟩
  · rw [hline.lanes, h.approach.lanes, hselected.lanes]
  · rw [hline.ids, h.approach.ids, hselected.ids]

/-- After some actions every channel plays the part of its last turn, the declared parts are those
of all turns, and every chord is heard from its part. -/
structure Plan.Led (p : Plan) (before : List Action) (s : Score) (R : Reading) : Prop where
  lanes : ∀ channel, s.lanes.get channel =
    (before.filterMap (Action.turn? channel)).getLast?.map
      (fun turn => p.recording.partAt channel turn.tick)
  declared : ∀ id, id ∈ s.roster.ids ↔ ∃ turn ∈ before.filterMap (Action.turn? id.channel),
    p.recording.partAt id.channel turn.tick = id
  heard : R.heard.map (fun h => (h.part, h.sounds)) = (before.filterMap Action.chord?).map
    (fun c => (p.recording.partAt c.channel c.tick, c.sounds p.tables))

namespace Plan.Led

variable {p : Plan} {before : List Action} {a : Action} {s s' : Score} {R R' : Reading}

/-- An action that is no turn. -/
theorem keep (h : p.Led before s R) (hturn : ∀ channel, a.turn? channel = none)
    (hchord : a.chord? = none) (hlanes : s'.lanes = s.lanes) (hids : s'.roster.ids = s.roster.ids)
    (hheard : R'.heard = R.heard) : p.Led (before ++ [a]) s' R' := by
  have hturns (channel : Channel) : (before ++ [a]).filterMap (Action.turn? channel) =
      before.filterMap (Action.turn? channel) := by simp [hturn]
  refine ⟨fun channel => ?_, fun id => ?_, ?_⟩
  · rw [hlanes, hturns, h.lanes]
  · rw [hids, hturns, h.declared]
  · rw [hheard, h.heard]
    simp [hchord]

/-- An action that is a turn of the part at its tick. -/
theorem take (h : p.Led before s R) {channel : Channel} (turn : Turn)
    (hturn : ∀ channel', a.turn? channel' = if channel = channel' then some turn else none)
    (htakes : Score.Takes (p.recording.partAt channel turn.tick) s s')
    (hheard : R'.heard.map (fun h => (h.part, h.sounds)) =
      ((before ++ [a]).filterMap Action.chord?).map
        (fun c => (p.recording.partAt c.channel c.tick, c.sounds p.tables))) :
    p.Led (before ++ [a]) s' R' := by
  have hturns (channel' : Channel) : (before ++ [a]).filterMap (Action.turn? channel') =
      before.filterMap (Action.turn? channel') ++ if channel = channel' then [turn] else [] := by
    by_cases hchannel : channel = channel' <;> simp [hturn, hchannel]
  refine ⟨fun channel' => ?_, fun id => ?_, hheard⟩
  · have hlane : s'.lanes.get channel' = if channel = channel' then
        some (p.recording.partAt channel turn.tick) else s.lanes.get channel' := by
      rw [htakes.lanes]
      change (s.lanes.set channel.val _)[channel'.val] = _
      rw [Vector.getElem_set]
      simp only [Fin.val_inj]
      rfl
    rw [hlane, hturns, h.lanes]
    by_cases hchannel : channel = channel'
    · subst hchannel
      simp
    · simp [hchannel]
  · rw [htakes.ids, h.declared, hturns]
    by_cases hchannel : channel = id.channel
    · subst hchannel
      simp only [if_true, List.mem_append, List.mem_singleton, or_and_right, exists_or,
        exists_eq_left]
      rw [eq_comm (a := id)]
    · have hne : id ≠ p.recording.partAt channel turn.tick := fun heq => hchannel (heq ▸ rfl)
      simp [hchannel, hne]

/-- Every action keeps the parts in order. The turns of a channel are those of a transcription, so a
chord that goes on with the part of its channel goes on with the part of its own tick. -/
theorem step (h : p.Led before s R) (hp : p.Proper) {slices : List Slice}
    (hslices : p.recording.HasSlices slices) {rest : List Action}
    (hsplit : p.actions slices = before ++ a :: rest) (hagrees : Agrees p.tables s R)
    (hwrite : Writes (a.write p) s () s') (heffect : a.Effect p s R s' R') :
    p.Led (before ++ [a]) s' R' := by
  cases a with
  | beginSlice slice number =>
    obtain ⟨_, rfl⟩ := Writes.unique hwrite (Writes.act _ s)
    have hbegun := Score.begun_beginSlice p slice number s
    exact h.keep (fun _ => rfl) rfl hbegun.lanes hbegun.ids (Begins.heard heffect)
  | globals slice =>
    obtain ⟨_, rfl⟩ := Writes.unique hwrite (Writes.act _ s)
    obtain ⟨new, hextends, _⟩ := Score.extends_addGlobals slice s
    exact h.keep (fun _ => rfl) rfl hextends.lanes hextends.ids (Still.heard heffect)
  | blank =>
    obtain ⟨_, rfl⟩ := Writes.unique hwrite (Writes.act _ s)
    exact h.keep (fun _ => rfl) rfl rfl rfl (Still.heard heffect)
  | change channel tick =>
    have hchange : Writes ((Action.change channel tick).write p) s () _ :=
      Writes.bind (writes_changePart hp channel tick s) (Writes.pure () _)
    obtain ⟨_, rfl⟩ := Writes.unique hwrite hchange
    have htakes := (Score.switched_change (p.recording.partAt channel tick) s).takes
    refine h.take ⟨tick, false⟩ (fun _ => rfl) htakes ?_
    rw [Still.heard heffect, h.heard]
    simp [Action.chord?]
  | chord c =>
    have hc : c.Valid p.tables := valid_actions hp hslices (.chord c) (by rw [hsplit]; simp)
    obtain ⟨id, selected, entered, hchorded⟩ := hagrees.chorded hp hc hwrite
    have hid : p.recording.partAt c.channel c.tick = id := by
      rcases hchorded.part with ⟨_, hlane, _⟩ | ⟨hid, _⟩
      · rw [h.lanes] at hlane
        obtain ⟨turn, hlast, rfl⟩ := Option.map_eq_some_iff.mp hlane
        have hchain := hslices.turns_isChain hp.recording c.channel
        rw [← p.filterMap_turn, hsplit, List.filterMap_append, List.filterMap_cons,
          Action.turn?, if_pos rfl] at hchain
        exact ((List.isChain_append.mp hchain).2.2 turn hlast ⟨c.tick, true⟩ rfl rfl).symm
      · exact hid.symm
    subst hid
    refine h.take ⟨c.tick, true⟩ (fun _ => rfl)
      (hchorded.takes (hagrees.lanes c.channel _)) ?_
    obtain ⟨gap, henter⟩ := hchorded.enters
    obtain ⟨id', jump, gap', entered', henter', hpasses⟩ := heffect
    have hsame : p.recording.partAt c.channel c.tick = id' :=
      (Prod.mk.inj (Writes.unique henter henter').1).1
    rw [hpasses.heard, List.map_append, h.heard, hsame.symm]
    simp [Action.chord?]

end Plan.Led

/-- The parts of a transcription are in order at its end. -/
theorem Plan.exists_led {p : Plan} (hp : p.Proper) {slices : List Slice}
    (hslices : p.recording.HasSlices slices) :
    ∃ s R, p.score slices = .ok s ∧ Agrees p.tables s R ∧ p.Led (p.actions slices) s R := by
  have hstart : p.Led [] {} {} := by
    refine ⟨fun channel => ?_, fun id => ?_, rfl⟩
    · exact Vector.getElem_replicate channel.isLt
    · simp [Roster.ids, Roster.empty]
  obtain ⟨s, R, hwrite, hagrees, hled⟩ := Agrees.run_done hp (valid_actions hp hslices) hstart
    (fun hsplit hagrees hled hwrite _ heffect =>
      hled.step hp hslices hsplit hagrees hwrite heffect) (List.append_nil _).symm
  exact ⟨s, R, score_eq_ok.mpr hwrite, hagrees, hled⟩

/-! ### The part of every note -/

/-- A reader hears the chords of the runs of a channel in their order, each from the part of its
tick. -/
theorem Plan.Led.forall₂_runs {p : Plan} {slices : List Slice} {s : Score} {R : Reading}
    (h : p.Led (p.actions slices) s R) (channel : Channel) :
    (slices.flatMap (fun s => s.runs p channel)).Forall₂
      (fun run heard => p.recording.partAt channel run.2.tick = heard.part ∧
        run.2.sounds p.tables = heard.sounds)
      (R.heard.filter (fun h => h.part.channel = channel)) := by
  have hchannel {c : Chord} (hc : c ∈ (slices.flatMap (fun s => s.runs p channel)).map Prod.snd) :
      c.channel = channel := by
    rw [← p.chords_eq] at hc
    simpa using (List.mem_filter.mp hc).2
  have hheard := congrArg (List.filter (fun x => x.1.channel = channel)) h.heard
  rw [List.filter_map, List.filter_map] at hheard
  change _ = (((p.actions slices).filterMap Action.chord?).filter
    (fun c => c.channel = channel)).map _ at hheard
  rw [p.chords_eq, List.map_map] at hheard
  have hall := List.forall₂_map_left_iff.mp (List.forall₂_map_right_iff.mp
    (List.forall₂_eq_eq_eq ▸ hheard.symm))
  refine List.forall₂_iff_zip.mpr ⟨hall.length_eq, fun {run heard} hmem => ?_⟩
  have heq := (List.forall₂_iff_zip.mp hall).2 hmem
  have hrun := hchannel (List.mem_map_of_mem (List.of_mem_zip hmem).1)
  simp only [Function.comp_apply, Prod.mk.injEq, hrun] at heq
  exact heq

/-- The strikes of a channel are divided among the chords that a reader hears from it. Each of these
is heard from the part of every strike in it, with the pitches of the strike. -/
theorem Plan.Led.exists_runs {p : Plan} {slices : List Slice} {s : Score} {R : Reading}
    (h : p.Led (p.actions slices) s R) (hrep : p.recording.WellFormed)
    (hslices : p.recording.HasSlices slices) (channel : Channel) :
    ∃ runs : List (List Int × Heard),
      runs.flatMap Prod.fst = (p.recording.strikesOn channel.val).keys ∧
      runs.map Prod.snd = R.heard.filter (fun h => h.part.channel = channel) ∧
      ∀ run ∈ runs, ∀ tick ∈ run.1, p.recording.partAt channel tick = run.2.part ∧
        ∀ pitch ∈ (p.recording.struckAt channel.val tick).keys, ∃ length ticks,
          .note pitch length ticks ∈ run.2.sounds := by
  obtain ⟨hlength, hall⟩ := List.forall₂_iff_zip.mp (h.forall₂_runs channel)
  have hticks := Plan.flatMap_runs hrep hslices channel
  have hruns : ∀ run ∈ slices.flatMap (fun s => s.runs p channel), ∃ i s,
      slices[i]? = some s ∧ p.recording.HasSlice i s ∧ run ∈ s.runs p channel := by
    intro run hrun
    obtain ⟨s, hs, hrun⟩ := List.mem_flatMap.mp hrun
    obtain ⟨i, hget, hslice⟩ := hslices.exists_place hs
    exact ⟨i, s, hget, hslice, hrun⟩
  generalize slices.flatMap (fun s => s.runs p channel) = runs at hlength hall hticks hruns
  generalize R.heard.filter (fun h => h.part.channel = channel) = heard at hlength hall
  refine ⟨(runs.zip heard).map (fun x => (x.1.1, x.2)), ?_, ?_, fun run hrun tick htick => ?_⟩
  · rw [← hticks, List.flatMap_map, ← List.map_fst_zip (Nat.le_of_eq hlength), List.flatMap_map,
      List.map_fst_zip (Nat.le_of_eq hlength)]
  · rw [List.map_map]
    exact List.map_snd_zip (Nat.le_of_eq hlength.symm)
  · obtain ⟨⟨⟨ticks, c⟩, heard⟩, hmem, rfl⟩ := List.mem_map.mp hrun
    obtain ⟨hpart, hsounds⟩ := hall hmem
    obtain ⟨i, s, hget, hslice, hrun⟩ := hruns _ (List.of_mem_zip hmem).1
    obtain ⟨hchannel, hholds⟩ := hslice.holds hget hrun
    refine ⟨(hslice.partAt_run hrep hrun htick).1.trans hpart, fun pitch hpitch => ?_⟩
    obtain ⟨tone, htone, rfl⟩ :=
      List.mem_map.mp ((hholds.pitches pitch).mpr ⟨tick, htick, hchannel ▸ hpitch⟩)
    refine ⟨tone.written.text, tone.written.endTick - c.tick, ?_⟩
    rw [← hsounds]
    exact List.mem_append_left _ (List.mem_map.mpr ⟨tone, htone, rfl⟩)

/-- Only a channel has strikes. -/
theorem Recording.WellFormed.exists_channel {r : Recording} (hrep : r.WellFormed)
    {channel tick : Int} (h : tick ∈ (r.strikesOn channel).keys) :
    ∃ c : Channel, (c.val : Int) = channel := by
  unfold strikesOn at h
  cases hget : r.strikes.get? channel with
  | none =>
    rw [hget] at h
    cases h
  | some strikes =>
    have hrange := hrep.strikes channel (Table.mem_keys_iff.mpr ⟨strikes, hget⟩)
    exact ⟨⟨channel.toNat, by simp only [channelCount]; omega⟩, by simp only; omega⟩

/-- **Every note is written under the part of the program that plays it.** A reader of the text
hears every strike of a channel in a chord of the part of the program at the strike's own tick: the
ticks of the strikes are divided into runs, one for each chord that is heard from the channel, in
order. The parts that are declared are those of the programs at some strike, and each is declared
once. -/
theorem Recording.notes_under_their_parts {document : Json} {r : Recording}
    (hdocument : Recording.ofDocument document = .ok r) (settings : Settings) :
    let p := Plan.of r settings
    ∃ slices s R, r.slices = .ok slices ∧ p.score slices = .ok s ∧
      Reading.ofTexts? p.tables (s.lines.toList.map Line.text) = some R ∧
      (∀ channel : Int, ∃ runs : List (List Int × Heard),
        runs.flatMap Prod.fst = (r.strikesOn channel).keys ∧
        runs.map Prod.snd = R.heard.filter (fun h => (h.part.channel.val : Int) = channel) ∧
        ∀ run ∈ runs, ∀ tick ∈ run.1,
          PartId.ofInts channel (r.programAt channel tick) = .ok run.2.part ∧
          ∀ pitch ∈ (r.struckAt channel tick).keys, ∃ length ticks,
            .note pitch length ticks ∈ run.2.sounds) ∧
      s.lines.toList.filterMap Line.declares? = R.declared ∧ R.declared.Nodup ∧
      ∀ id, id ∈ R.declared ↔ ∃ channel tick, tick ∈ (r.strikesOn channel).keys ∧
        PartId.ofInts channel (r.programAt channel tick) = .ok id := by
  intro p
  have hrep := Recording.ofDocument_wellFormed hdocument
  have hp : p.Proper := Plan.proper_of hrep settings
  obtain ⟨slices, hslices, hhas⟩ := Recording.exists_slices hrep
  obtain ⟨s, R, hscore, hagrees, hled⟩ := Plan.exists_led hp hhas
  refine ⟨slices, s, R, hslices, hscore, hagrees.ofTexts?, fun channel => ?_, ?_, ?_, fun id => ?_⟩
  · by_cases hrange : ∃ c : Channel, (c.val : Int) = channel
    · obtain ⟨c, rfl⟩ := hrange
      obtain ⟨runs, hticks, hheard, hall⟩ := hled.exists_runs hrep hhas c
      refine ⟨runs, hticks, ?_, fun run hrun tick htick => ?_⟩
      · rw [hheard]
        refine List.filter_congr (fun h _ => decide_eq_decide.mpr ?_)
        rw [Fin.ext_iff]
        omega
      · obtain ⟨hpart, hpitches⟩ := hall run hrun tick htick
        exact ⟨hrep.ofInts_eq_ok.mpr hpart, hpitches⟩
    · refine ⟨[], ?_, ?_, by simp⟩
      · refine (List.eq_nil_iff_forall_not_mem.mpr (fun tick htick => ?_)).symm
        exact hrange (hrep.exists_channel htick)
      · refine (List.filter_eq_nil_iff.mpr (fun h _ hc => ?_)).symm
        exact hrange ⟨h.part.channel, by simpa using hc⟩
  · have hread : ({} : Reading).lines? p.tables s.lines.toList = some R := hagrees.reads
    exact (Reading.follows_of_lines? hread).1.symm
  · rw [hagrees.declared]
    exact s.roster.nodup
  · rw [hagrees.declared, hled.declared, p.filterMap_turn, hhas.exists_turn_iff hrep]
    constructor
    · rintro ⟨tick, htick, hpart⟩
      exact ⟨_, tick, htick, hrep.ofInts_eq_ok.mpr hpart⟩
    · rintro ⟨channel, tick, htick, hpart⟩
      obtain ⟨c, rfl⟩ := hrep.exists_channel htick
      have hid := hrep.ofInts_eq_ok.mp hpart
      obtain rfl : c = id.channel := congrArg PartId.channel hid
      exact ⟨tick, htick, hid⟩

/-- A strum in which another program is chosen, a choice that is not played, and a second slice. -/
theorem Recording.notes_under_their_parts_change :
    ∃ r slices s R, Recording.ofDocument (.obj
        [("resolution", .int 480),
          ("channels", .obj [("2", .obj
            [("programs", .arr
                [.obj [("tick", .int 2), ("program", .int 40)],
                  .obj [("tick", .int 481), ("program", .int 7)],
                  .obj [("tick", .int 700), ("program", .int 40)]]),
              ("notes", .arr
                [.obj [("tick", .int 0), ("note", .int 60), ("length", .int 480)],
                  .obj [("tick", .int 3), ("note", .int 64), ("length", .int 480)],
                  .obj [("tick", .int 960), ("note", .int 67), ("length", .int 480)]])])]),
          ("globals", .arr [.obj [("tick", .int 480), ("tempo", .int 90)]])]) = .ok r ∧
      r.slices = .ok slices ∧ (Plan.of r {}).score slices = .ok s ∧
      Reading.ofTexts? (Plan.of r {}).tables (s.lines.toList.map Line.text) = some R ∧
      ((r.strikesOn 2).keys.map (fun tick => (tick, r.programAt 2 tick)) =
        [(0, 0), (3, 40), (960, 40)]) ∧
      ∀ id, id ∈ R.declared ↔ ∃ channel tick, tick ∈ (r.strikesOn channel).keys ∧
        PartId.ofInts channel (r.programAt channel tick) = .ok id := by
  obtain ⟨r, hdocument, hr⟩ := exists_eq_ok (show (Recording.ofDocument (.obj
      [("resolution", .int 480),
        ("channels", .obj [("2", .obj
          [("programs", .arr
              [.obj [("tick", .int 2), ("program", .int 40)],
                .obj [("tick", .int 481), ("program", .int 7)],
                .obj [("tick", .int 700), ("program", .int 40)]]),
            ("notes", .arr
              [.obj [("tick", .int 0), ("note", .int 60), ("length", .int 480)],
                .obj [("tick", .int 3), ("note", .int 64), ("length", .int 480)],
                .obj [("tick", .int 960), ("note", .int 67), ("length", .int 480)]])])]),
        ("globals", .arr [.obj [("tick", .int 480), ("tempo", .int 90)]])])).toOption.any
      (fun r => (r.strikesOn 2).keys.map (fun tick => (tick, r.programAt 2 tick)) =
        [(0, 0), (3, 40), (960, 40)]) = true by decide +kernel)
  obtain ⟨slices, s, R, hslices, hscore, hread, _, _, _, hdeclared⟩ :=
    Recording.notes_under_their_parts hdocument {}
  exact ⟨r, slices, s, R, hdocument, hslices, hscore, hread, of_decide_eq_true hr, hdeclared⟩

end Transcription
