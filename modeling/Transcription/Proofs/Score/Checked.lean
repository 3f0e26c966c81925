import Transcription.Proofs.Length.Checked
import Transcription.Proofs.Score.Forward
import Transcription.Proofs.Score.Groups

/-!
# Checked writing is writing

With the lengths of a resolution no check of the writing fails, as long as no tick is too long to be
written: the same steps succeed, with the same results. A gap is no longer than the tick at which it
ends, because the part before it is at the start or after it. So the steps are compared in scores in
which every part is, and no step moves a part back.
-/

namespace Transcription

/-- A text that is no key is refused as an invalid one. -/
theorem KeySignature.read_eq_error {text : String} {e : Failure}
    (h : KeySignature.read text = .error e) : e = .invalidKey text := by
  unfold KeySignature.read at h
  split at h
  · cases h
  · exact (Except.error.inj h).symm

namespace Writing

variable {α : Type}

/-- A computation that succeeds is no step. -/
theorem lift_ok {x : Except Failure α} {a : α} (h : x = .ok a) : lift x = pure a := by
  subst h
  rfl

/-- A step that succeeds in every score is known by what it does. -/
theorem eq_of {m : Writing α} {f : Score → α × Score} (h : ∀ s, Writes m s (f s).1 (f s).2) :
    m = of f :=
  funext h

/-- A step that succeeds in every score and gives nothing back is known by where it goes. -/
theorem eq_act {m : Writing Unit} {f : Score → Score} (h : ∀ s, Writes m s () (f s)) : m = act f :=
  funext h

/-- The score is read. -/
theorem Writes.get (s : Score) : Writes (get : Writing Score) s s s := rfl

/-- Two steps do the same in scores in which every part is at the start or after it, and they move
no part back. -/
structure Matches (m m' : Writing α) : Prop where
  eq : ∀ s, s.Started → m s = m' s
  forward : Forward m'

namespace Matches

variable {β : Type} {m m' : Writing α}

/-- A step that moves no part back matches itself. -/
theorem refl (h : Forward m) : Matches m m := ⟨fun _ _ => rfl, h⟩

/-- Two steps, one after the other. -/
theorem bind {f f' : α → Writing β} (hm : Matches m m') (hf : ∀ a, Matches (f a) (f' a)) :
    Matches (m >>= f) (m' >>= f') where
  eq s hs := by
    change EStateM.bind m f s = EStateM.bind m' f' s
    unfold EStateM.bind
    rw [hm.eq s hs]
    cases hfirst : m' s with
    | ok a s' => exact (hf a).eq s' (fun id => Int.le_trans (hs id) (hm.forward s a s' hfirst id))
    | error e s' => rfl
  forward := hm.forward.bind (fun a => (hf a).forward)

/-- A step for each item of a list. -/
theorem forM {l : List β} {f f' : β → Writing PUnit} (h : ∀ b ∈ l, Matches (f b) (f' b)) :
    Matches (l.forM f) (l.forM f') := by
  induction l with
  | nil => exact .refl (.pure _)
  | cons b l ih =>
    exact .bind (h b List.mem_cons_self)
      (fun _ => ih (fun b' hb' => h b' (List.mem_cons_of_mem _ hb')))

end Matches

end Writing

/-- A slice none of whose ticks is after a bound, and none of whose events is before the start. -/
structure Slice.Within (bound : Int) (s : Slice) : Prop where
  beginTick : s.beginTick ≤ bound
  endTick : s.endTick ≤ bound
  events : ∀ lane, ∀ e ∈ s.timelines.get lane, 0 ≤ e.1 ∧ e.1 ≤ bound

namespace Checked

open Writing

variable {limit : Option Nat} {bound : Int} {p : Plan}

/-- A limit that allows every integer from the start up to a bound to be written. -/
def Allows (limit : Option Nat) (bound : Int) : Prop :=
  ∀ n, 0 ≤ n → n ≤ bound → checkDigits limit n = .ok ()

/-- Without a limit every integer is written. -/
theorem allows_none (bound : Int) : Allows none bound := fun _ _ _ => if_pos nofun

/-- A limit that a bound keeps to is kept to by what is less. -/
theorem allows_of_fitsIn {digits : Nat} (h : Text.FitsIn digits bound) :
    Allows (some digits) bound := by
  intro n hn hle
  refine if_pos ?_
  rintro _ ⟨⟩
  exact Nat.lt_of_le_of_lt (by omega) h

/-- Every warning is of a known kind. -/
theorem checkKind_eq (w : Warning) : checkKind w = .ok w :=
  bind_eq_ok.mpr ⟨w.kind, WarningKind.ofName_name w.kind, rfl⟩

/-- Warnings are given. -/
theorem warn_eq (w : Warning) : warn w = act (fun s => s.warn w) := by
  rw [warn, lift_ok (checkKind_eq w), pure_bind]

/-- Tokens that are numbers are counted. -/
theorem count_eq {tokens : List String} {triplets : List Bool}
    (h : tokens.mapM Length.isTriplet? = .ok triplets) (channel : Int) (item : Item) :
    count channel item tokens =
      act (fun s => { s with statistics := s.statistics.count channel item tokens }) := by
  refine eq_act (fun s => Writes.bind (Writes.get s) ?_)
  rw [Statistics.count?, h]
  exact Writes.bind (Writes.act _ s) (Writes.lift rfl _)

/-! ### Rests -/

/-- Rests are found. -/
theorem rest_eq (hp : p.tables.Proper) (id : PartId) (ticks tick : Int) :
    rest p id ticks tick = of (Score.rest p id ticks tick) := by
  have hmem : ∀ e ∈ p.tables.restSummands ticks, e ∈ p.tables.rests.entries :=
    fun e he => LengthTables.mem_of_mem_restSummands he
  have htokens := LengthTable.tokens?_map_fst hmem
  have hcount := count_eq (hp.rests_ofLadder.mapM_isTriplet? hmem) id.channel.val .rest
  refine eq_of (fun s => ?_)
  unfold rest Score.rest
  by_cases hgap : ticks ≤ 0
  · simp only [hgap, if_true]
    exact Writes.pure none s
  · by_cases hnil : p.tables.restSummands ticks = []
    · simp only [hgap, hnil, List.map_nil, if_true, if_false, warn_eq]
      exact Writes.bind (Writes.act _ s) (Writes.bind (Writes.act _ _) (Writes.pure _ _))
    · have hne : (p.tables.restSummands ticks).map Prod.fst ≠ [] := by simpa using hnil
      simp only [hgap, hnil, hne, if_false, lift_ok htokens, pure_bind, hcount]
      exact Writes.bind (Writes.act _ s) (Writes.bind (Writes.act _ _) (Writes.pure _ _))

/-- Rests are found for gaps that are no longer than what may be written. -/
theorem gap_eq (hp : p.tables.Proper) (hlimit : Allows limit bound) (id : PartId) {ticks : Int}
    (hticks : ticks ≤ bound) (tick : Int) :
    gap limit p id ticks tick = of (Score.rest p id ticks tick) := by
  unfold gap
  rw [rest_eq hp]
  by_cases hnone : 0 < ticks ∧ p.tables.restSummands ticks = []
  · rw [if_pos hnone, lift_ok (hlimit ticks (Int.le_of_lt hnone.1) hticks), pure_bind]
  · rw [if_neg hnone]

/-- Rests up to a tick are found for parts that are at the start or after it. -/
theorem writes_restUpTo (hp : p.tables.Proper) (hlimit : Allows limit bound) {id : PartId}
    {tick : Int} (htick : tick ≤ bound) {s : Score} (hs : 0 ≤ (s.part id).cursor) :
    Writes (restUpTo limit p id tick) s (s.restUpTo p id tick).1 (s.restUpTo p id tick).2 := by
  refine Writes.bind (Writes.get s) ?_
  simp only [gap_eq hp hlimit id (show tick - (s.part id).cursor ≤ bound by omega)]
  unfold Score.restUpTo
  by_cases hgap : (s.part id).cursor < tick
  · rw [if_neg (by omega), if_pos hgap]
    exact Writes.bind (Writes.of _ s) (Writes.bind (Writes.act _ _) (Writes.pure _ _))
  · rw [if_pos (by omega), if_neg hgap]
    exact Writes.pure none s

/-- A chord is left no later than the next one begins and the slice ends. -/
theorem cut_le {next : Option Int} {endTick chordEnd cut : Int} (hnext : ∀ n ∈ next, n ≤ bound)
    (hend : endTick ≤ bound) (h : Score.cut next endTick chordEnd = some cut) : cut ≤ bound := by
  have hmem := List.mem_of_mem_filter (List.min?_mem h)
  rcases List.mem_append.mp hmem with hmem | hmem
  · exact hnext cut (Option.mem_toList.mp hmem)
  · exact List.mem_singleton.mp hmem ▸ hend

/-- Rests inside a chord are found. -/
theorem restInChord_eq (hp : p.tables.Proper) (hlimit : Allows limit bound) (id : PartId)
    {tick : Int} (htick : 0 ≤ tick) {cut : Option Int} (hcut : ∀ c ∈ cut, c ≤ bound)
    (chordEnd : Int) :
    restInChord limit p id tick cut chordEnd = of (Score.restInChord p id tick cut chordEnd) := by
  refine eq_of (fun s => ?_)
  unfold restInChord Score.restInChord
  cases cut with
  | none => exact Writes.pure _ s
  | some cut =>
    have := hcut cut rfl
    simp only [gap_eq hp hlimit id (show cut - tick ≤ bound by omega)]
    refine Writes.bind (Writes.of _ s) ?_
    cases Score.rest p id (cut - tick) tick s with
    | mk length s' => cases length <;> exact Writes.pure _ s'

/-! ### The begin of a slice -/

/-- The part that is furthest along is brought up to the begin of a slice. -/
theorem writes_restBeforeSlice (hp : p.tables.Proper) (hlimit : Allows limit bound)
    {current : Slice} (hbegin : current.beginTick ≤ bound) {s : Score} (hs : s.Started) :
    Writes (restBeforeSlice limit p current) s () (s.restBeforeSlice p current) := by
  refine Writes.bind (Writes.get s) ?_
  unfold Score.restBeforeSlice
  cases hfurthest : s.roster.furthest? with
  | none => exact Writes.pure () s
  | some found =>
    obtain ⟨id, part⟩ := found
    have hpart : s.part id = part := (Roster.mem_of_furthest? hfurthest).2
    have hcursor : 0 ≤ part.cursor := hpart ▸ hs id
    by_cases hgap : current.beginTick ≤ part.cursor
    · simp only [hgap, if_true]
      exact Writes.pure () s
    · simp only [hgap, if_false, gap_eq hp hlimit id
        (show current.beginTick - part.cursor ≤ bound by omega)]
      refine Writes.bind (Writes.act _ s) (Writes.bind (Writes.of _ _) ?_)
      cases Score.rest p id (current.beginTick - part.cursor) part.cursor (s.select id) with
      | mk length s' =>
        cases length with
        | none => exact Writes.act _ s'
        | some length => exact Writes.bind (Writes.act _ s') (Writes.act _ _)

/-- Slices are begun. -/
theorem matches_beginSlice (hp : p.tables.Proper) (hlimit : Allows limit bound) {current : Slice}
    (hbegin : current.beginTick ≤ bound) (number : Int) :
    Matches (beginSlice limit p current number) (act (Score.beginSlice p current number)) := by
  refine ⟨fun s hs => ?_, .act fun s => (Score.begun_beginSlice p current number s).cursor⟩
  have hcommented (s' : Score) : Writes (do
        act (fun s => s.addLine .blank)
        if p.settings.sliceComments then act (fun s => s.addLine (.comment number)) : Writing Unit)
      s' () (if p.settings.sliceComments then (s'.addLine .blank).addLine (.comment number)
        else s'.addLine .blank) := by
    refine Writes.bind (Writes.act _ s') ?_
    split
    · exact Writes.act _ _
    · exact Writes.pure () _
  have hwrites : Writes (beginSlice limit p current number) s ()
      (s.beginSlice p current number) := by
    refine Writes.bind (Writes.act _ s) ?_
    unfold Score.beginSlice
    by_cases hnumber : 0 < number
    · simp only [hnumber, if_true]
      exact Writes.bind (writes_restBeforeSlice hp hlimit hbegin hs)
        (Writes.bind (Writes.act _ _) (hcommented _))
    · simp only [hnumber, if_false]
      exact hcommented _
  exact hwrites

/-! ### Global settings -/

/-- A key is read, or refused as an invalid one. -/
theorem readKey_eq (text : String) : readKey text = KeySignature.read text := by
  unfold readKey
  cases hread : KeySignature.read text with
  | error e => rfl
  | ok key =>
    refine bind_eq_ok.mpr ⟨key, rfl, bind_eq_ok.mpr ⟨key.token, ?_, rfl⟩⟩
    rw [KeySignature.tokenOf, key.of?_fifths_mode]

/-- The key of a slice is put in force, or warned of. -/
theorem changeKey_eq (current : Slice) : changeKey current = of (Score.changeKey current) := by
  refine eq_of (fun s => ?_)
  unfold changeKey Score.changeKey
  cases current.globals.get? keyCommand with
  | none => exact Writes.pure [] s
  | some text =>
    simp only [readKey_eq]
    cases hread : KeySignature.read text with
    | ok key => exact Writes.bind (Writes.act _ s) (Writes.pure _ _)
    | error e =>
      cases KeySignature.read_eq_error hread
      simp only [warn_eq]
      exact Writes.bind (Writes.get s) (Writes.bind (Writes.act _ s) (Writes.pure [] _))

/-- The global settings of a slice are written. -/
theorem addGlobals_eq (current : Slice) : addGlobals current = act (Score.addGlobals current) := by
  refine eq_act (fun s => ?_)
  unfold addGlobals Score.addGlobals
  rw [changeKey_eq]
  refine Writes.bind (Writes.of _ s) ?_
  cases Score.changeKey current s with
  | mk key s' =>
    by_cases hnil : key ++ Score.tempoSetting current = []
    · simp only [hnil, ne_eq, not_true_eq_false, if_false, if_true]
      exact Writes.pure () s'
    · simp only [hnil, ne_eq, not_false_eq_true, if_true, if_false]
      exact Writes.act _ s'

/-! ### Chords -/

/-- The tone that a note is written as. -/
def toneOf (p : Plan) (tick : Int) (next : Option Int) (e : Int × Note) : Score.Tone where
  pitch := e.1
  velocity := e.2.velocity
  held := e.2.offTick - tick
  written := p.tables.write tick next e.2

/-- A note gets its length, and is counted with it. -/
theorem writes_tone (hp : p.tables.Proper) (channel tick : Int) (next : Option Int)
    (e : Int × Note) (s : Score) :
    Writes (tone p channel tick next e) s (toneOf p tick next e)
      (Score.countTone channel tick s (toneOf p tick next e)) := by
  unfold tone
  set fit := p.tables.fit (e.2.offTick - tick) (next.map (fun n => n - tick)) with hfit
  have hmem : ∀ e' ∈ p.tables.noteSummands fit.length, e' ∈ p.tables.notes.entries :=
    fun e' he' => LengthTables.mem_of_mem_noteSummands he'
  have hne : (p.tables.noteSummands fit.length).map Prod.fst ≠ [] := by
    simpa using hp.noteSummands_fit_ne_nil _ _
  have hcount := count_eq (hp.notes_ofLadder.mapM_isTriplet? hmem) channel .note
  simp only [lift_ok (hp.checkedFit_eq _ _), ← hfit, pure_bind,
    lift_ok (LengthTable.tokens?_map_fst hmem), LengthTable.foldr_map_fst, hne, if_false, hcount]
  have htokens : (toneOf p tick next e).written.tokens ≠ [] := by
    simpa [toneOf, LengthTables.write] using hne
  rw [Score.countTone, if_neg htokens]
  exact Writes.bind (Writes.act _ s) (Writes.pure _ _)

/-- The notes of a chord get their lengths, and are counted with them. -/
theorem writes_tones (hp : p.tables.Proper) (channel tick : Int) (next : Option Int)
    (entries : List (Int × Note)) (s : Score) :
    Writes (entries.mapM (tone p channel tick next)) s (entries.map (toneOf p tick next))
      (s.countTones channel tick (entries.map (toneOf p tick next))) := by
  induction entries generalizing s with
  | nil => exact Writes.pure [] s
  | cons e rest ih =>
    rw [List.mapM_cons]
    exact Writes.bind (writes_tone hp channel tick next e s)
      (Writes.bind (ih _) (Writes.pure _ _))

/-- A chord with notes ends. -/
theorem chordEnd_eq {tones : List Score.Tone} (hne : tones ≠ []) :
    chordEnd tones = .ok (Score.chordEnd tones) := by
  unfold chordEnd Score.chordEnd
  cases hmin : (tones.map (fun t => t.written.endTick)).min? with
  | none => exact absurd (List.map_eq_nil_iff.mp (List.min?_eq_none_iff.mp hmin)) hne
  | some tick => rfl

/-- A press of up to twice the length is kept as a quantization. -/
theorem checkQuant_eq {percent : Int} (h : percent ≤ 200) :
    checkQuant (max 1 percent) = .ok () := by
  have hall : ∀ q : Fin 201, checkQuant (q.val : Int) = .ok () := by decide +kernel
  have hquant := hall ⟨(max 1 percent).toNat, by omega⟩
  rwa [Int.toNat_of_nonneg (by omega)] at hquant

/-- Attributes are changed to those of a note that is pressed for at most twice its length. -/
theorem attributes_eq (id : PartId) {tones : List Score.Tone} (hne : tones ≠ [])
    (hpercent : ∀ tone ∈ tones, tone.written.percent ≤ 200) :
    attributes p id tones = Writing.attributes p id tones := by
  cases tones with
  | nil => exact absurd rfl hne
  | cons tone rest =>
    simp only [attributes, Writing.attributes,
      lift_ok (checkQuant_eq (hpercent tone List.mem_cons_self)), pure_bind]

/-- Chords are written. -/
theorem matches_chord (hp : p.tables.Proper) (hlimit : Allows limit bound) {current : Slice}
    (hend : current.endTick ≤ bound) (channel : Int) (lane : Channel) {tick : Int}
    (htick : 0 ≤ tick ∧ tick ≤ bound) {next : Option Int} (hnext : ∀ n ∈ next, n ≤ bound)
    {tones : List Score.Tone} (hne : tones ≠ [])
    (hpercent : ∀ tone ∈ tones, tone.written.percent ≤ 200) :
    Matches (chord limit p current channel lane tick next tones)
      (Writing.chord p current channel lane tick next tones) := by
  have hcut (noteEnd : Int) : ∀ c ∈ Score.cut next current.endTick noteEnd, c ≤ bound :=
    fun _ => cut_le hnext hend
  refine .bind (.refl (forward_partFor p channel lane tick)) fun id =>
    .bind (.refl (.of (Score.cursor_le_jump current id))) fun jump =>
      .bind ⟨fun s hs => writes_restUpTo hp hlimit htick.2 (hs id),
        .of (Score.cursor_le_restUpTo p id tick)⟩ fun gap => ?_
  simp only [lift_ok (chordEnd_eq hne), pure_bind, attributes_eq _ hne hpercent,
    restInChord_eq hp hlimit id htick.1 (hcut _)]
  exact .refl ((forward_attributes p id tones).bind fun _ =>
    (Forward.mapM (forward_note id) tones).bind fun _ =>
      (Forward.of (Score.cursor_le_restInChord p id tick _ _)).bind fun _ =>
        .act fun s id' => Score.cursor_le_advance id _ (s.addLine _) id')

/-! ### Slices -/

/-- Groups are written. -/
theorem matches_group (hp : p.tables.Proper) (hlimit : Allows limit bound) {current : Slice}
    (hend : current.endTick ≤ bound) (channel : Int) (lane : Channel) {groups : List Group}
    (hgroups : ∀ g ∈ groups, 0 ≤ g.tick ∧ g.tick ≤ bound) {g : Group} (hg : g ∈ groups) :
    Matches (group limit p current channel lane groups g)
      (Writing.group p current channel lane groups g) := by
  set next := Group.nextOnset? groups g.tick with hnext
  have hbound : ∀ n ∈ next, n ≤ bound := by
    intro n hn
    obtain ⟨g', hg', rfl⟩ := List.mem_map.mp (List.mem_of_find?_eq_some hn)
    exact (hgroups g' (List.mem_of_mem_filter hg')).2
  have htones : Score.tones p next g = g.notes.entries.map (toneOf p g.tick next) := rfl
  have hpercent : ∀ tone ∈ Score.tones p next g, tone.written.percent ≤ 200 := by
    intro tone htone
    obtain ⟨e, _, rfl⟩ := List.mem_map.mp htone
    exact hp.percent_le _ _
  have hnotes : g.notes.entries.mapM (tone p channel g.tick next) = do
      act (Score.countTones channel g.tick (Score.tones p next g))
      return Score.tones p next g := by
    funext s
    exact (writes_tones hp channel g.tick next g.notes.entries s)
  have hwritten : Matches (do
        if g.notes.entries = [] then return
        let tones ← g.notes.entries.mapM (tone p channel g.tick next)
        chord limit p current channel lane g.tick next tones) (do
        if Score.tones p next g = [] then return
        act (Score.countTones channel g.tick (Score.tones p next g))
        Writing.chord p current channel lane g.tick next (Score.tones p next g)) := by
    by_cases hnil : g.notes.entries = []
    · simp only [hnil, if_true, htones, List.map_nil]
      exact .refl (.pure ())
    · have hne : Score.tones p next g ≠ [] := by
        rw [htones]
        simpa using hnil
      simp only [hnil, if_false, hnotes, hne, bind_assoc, pure_bind]
      refine .bind (.refl (.act fun s => ?_)) fun _ =>
        matches_chord hp hlimit hend channel lane (hgroups g hg) hbound hne hpercent
      exact (s.extends_countTones channel g.tick _).1.cursor
  unfold group Writing.group
  by_cases hchange : g.first.change = true
  · simp only [hchange, if_true]
    exact .bind (.refl (forward_changePart p channel lane g.tick)) fun _ => hwritten
  · simp only [hchange]
    exact hwritten

/-- The music of channels is written. -/
theorem matches_channelBlock (hp : p.tables.Proper) (hlimit : Allows limit bound) {current : Slice}
    (hwithin : current.Within bound) (channel : Int) :
    Matches (channelBlock limit p current channel) (Writing.channelBlock p current channel) := by
  refine .bind (.refl (.lift _)) fun lane => ?_
  by_cases hempty : current.timelines.get lane = []
  · simp only [hempty, if_true]
    exact .refl (.pure ())
  · simp only [hempty, if_false]
    refine .bind (.refl (.act fun _ _ => Int.le_refl _)) fun _ =>
      .forM fun g hg => matches_group hp hlimit hwithin.endTick channel lane (fun g' hg' => ?_) hg
    exact hwithin.events lane _ (Group.events_subset hg' List.mem_cons_self)

/-- Slices are written. -/
theorem matches_slice (hp : p.tables.Proper) (hlimit : Allows limit bound) {current : Slice}
    (hwithin : current.Within bound) (number : Int) :
    Matches (slice limit p current number) (Writing.slice p current number) := by
  refine .bind (matches_beginSlice hp hlimit hwithin.beginTick number) fun _ =>
    .bind ?_ fun _ => .forM fun channel _ => matches_channelBlock hp hlimit hwithin channel
  rw [addGlobals_eq]
  refine .refl (.act fun s => ?_)
  obtain ⟨_, hextends, -⟩ := Score.extends_addGlobals current s
  exact hextends.cursor

/-- With the lengths of a resolution no check fails, as long as the ticks of all slices may be
written; so what is written with every step checked is what is written. -/
theorem score_eq (hp : p.tables.Proper) (hlimit : Allows limit bound) {slices : List Slice}
    (hwithin : ∀ s ∈ slices, s.Within bound) : score limit p slices = p.score slices := by
  have hslices : Matches (slices.zipIdx.forM (fun s => slice limit p s.1 (s.2 : Int)))
      (Writing.slices p slices) :=
    .forM fun s hs => matches_slice hp hlimit (hwithin s.1 (List.fst_mem_of_mem_zipIdx hs)) _
  unfold score Plan.score
  rw [EStateM.run, EStateM.run, hslices.eq {} Score.started_empty]
  rfl

end Checked

end Transcription
