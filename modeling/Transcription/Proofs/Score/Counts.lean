import Mathlib.Algebra.BigOperators.Fin
import Transcription.Proofs.Score.Stable

/-!
# Counting what is written

Notes are counted before their chord is written, and rests where they are made: before a slice,
before a chord and inside one. A rest that is too short is noticed and counted as skipped. So what a
step adds to the counters of a channel is known from the notes and rests that it writes, and the
totals stay the sums over all channels.
-/

namespace Transcription

/-! ### Notes and rests -/

/-- A note or a rest that is found in a text. -/
structure Found where
  /-- The channel of the part that plays it. -/
  channel : Channel
  /-- Whether it is a note or a rest. -/
  item : Item
  /-- Its length. -/
  length : String

/-- A rest of a part, if it has one. -/
def Found.ofRest (id : PartId) (length : Option String) : List Found :=
  length.toList.map (fun length => ⟨id.channel, .rest, length⟩)

/-- The notes of tones on a channel. -/
def Found.ofTones (channel : Channel) (tones : List Score.Tone) : List Found :=
  tones.map (fun tone => ⟨channel, .note, tone.written.text⟩)

namespace Counters

/-- The counters of a channel for the notes and rests that are found: how many there are, from how
many tokens their lengths are tied, and how many of these are triplets. No rest that is found is
skipped. -/
def ofFound (channel : Channel) (found : List Found) : Counters :=
  let notes := found.filter (fun f => f.channel = channel ∧ f.item = .note)
  let rests := found.filter (fun f => f.channel = channel ∧ f.item = .rest)
  let noteTokens := notes.flatMap (fun f => Length.tokens f.length)
  let restTokens := rests.flatMap (fun f => Length.tokens f.length)
  { notes := notes.length
    noteSummands := noteTokens.length
    noteTriplets := noteTokens.countP Length.isTriplet
    rests := rests.length
    restSummands := restTokens.length
    restTriplets := restTokens.countP Length.isTriplet }

/-- Counters are equal if all their values are. -/
theorem ext_get {c d : Counters} (h : ∀ counter, c.get counter = d.get counter) : c = d := by
  have hnotes : c.notes = d.notes := h .notes
  have hrests : c.rests = d.rests := h .rests
  have hskipped : c.restsSkipped = d.restsSkipped := h .restsSkipped
  have hnoteSummands : c.noteSummands = d.noteSummands := h .noteSummands
  have hrestSummands : c.restSummands = d.restSummands := h .restSummands
  have hnoteTriplets : c.noteTriplets = d.noteTriplets := h .noteTriplets
  have hrestTriplets : c.restTriplets = d.restTriplets := h .restTriplets
  cases c
  cases d
  simp_all

/-- Nothing is counted before anything is written. -/
@[simp] theorem get_empty (counter : Counter) : ({} : Counters).get counter = 0 := by
  cases counter <;> rfl

/-- Nothing is counted if nothing is found. -/
@[simp] theorem get_ofFound_nil (channel : Channel) (counter : Counter) :
    (ofFound channel []).get counter = 0 := by
  cases counter <;> rfl

/-- What is found in two places is counted together. -/
theorem get_ofFound_append (channel : Channel) (found more : List Found) (counter : Counter) :
    (ofFound channel (found ++ more)).get counter =
      (ofFound channel found).get counter + (ofFound channel more).get counter := by
  cases counter <;> simp [ofFound, get]

/-- Counting does not depend on the order. -/
theorem ofFound_perm {found more : List Found} (h : found.Perm more) (channel : Channel) :
    ofFound channel found = ofFound channel more := by
  have hitems (p : Found → Bool) : (found.filter p).Perm (more.filter p) := h.filter p
  have htokens (p : Found → Bool) := (hitems p).flatMap_right (fun f => Length.tokens f.length)
  simp only [ofFound, (hitems _).length_eq, (htokens _).length_eq, (htokens _).countP_eq]

end Counters

/-! ### Statistics -/

/-- Channels are told apart by their numbers. -/
theorem Channel.val_eq_val (channel channel' : Channel) :
    (channel.val : Int) = channel'.val ↔ channel = channel' := by
  simp [Fin.ext_iff]

namespace Statistics

/-- Raising a counter of a channel changes that counter of that channel and no other. -/
theorem get_channel_add (s : Statistics) (raised read : Int) (counter counter' : Counter)
    (amount : Int) :
    ((s.add raised counter amount).channel read).get counter' =
      (s.channel read).get counter' +
        if raised = read ∧ counter = counter' then amount else 0 := by
  have hchannel : (s.add raised counter amount).channel read =
      if raised = read then (s.channel raised).add counter amount else s.channel read := by
    rw [channel, add, Table.get?_insert]
    by_cases h : raised = read
    · simp [h]
    · simp [h, channel]
  rw [hchannel]
  by_cases h : raised = read
  · simp [h, Counters.get_add]
  · simp [h]

/-- Counting an item on its channel counts what is found. -/
theorem get_channel_count (s : Statistics) (f : Found) (channel : Channel) (counter : Counter) :
    ((s.count f.channel.val f.item (Length.tokens f.length)).channel channel.val).get counter =
      (s.channel channel.val).get counter + (Counters.ofFound channel [f]).get counter := by
  obtain ⟨channel', item, length⟩ := f
  simp only [count, countTokens, get_channel_add, Channel.val_eq_val]
  by_cases h : channel' = channel
  · cases item <;> cases counter <;>
      simp [h, Counters.ofFound, Counters.get, Item.count, Item.summands, Item.triplets]
  · cases counter <;> simp [h, Counters.ofFound, Counters.get]

/-- The totals are the sums over all channels. -/
def Balanced (s : Statistics) : Prop :=
  ∀ counter, s.total.get counter = ∑ channel : Channel, (s.channel channel.val).get counter

/-- Nothing is counted before anything is written. -/
theorem Balanced.empty : ({} : Statistics).Balanced := by
  intro counter
  have hchannel (channel : Channel) : ({} : Statistics).channel channel.val = {} := rfl
  simp [hchannel]

/-- Raising a counter of a channel raises the total. -/
theorem Balanced.add {s : Statistics} (h : s.Balanced) (channel : Channel) (counter : Counter)
    (amount : Int) : (s.add channel.val counter amount).Balanced := by
  intro read
  have htotal : (s.add channel.val counter amount).total = s.total.add counter amount := rfl
  simp only [get_channel_add, htotal, Counters.get_add, h read, Finset.sum_add_distrib,
    Channel.val_eq_val, ite_and, Finset.sum_ite_eq, Finset.mem_univ, if_true]

/-- Counting an item raises the totals. -/
theorem Balanced.count {s : Statistics} (h : s.Balanced) (channel : Channel) (item : Item)
    (tokens : List String) : (s.count channel.val item tokens).Balanced :=
  ((h.add channel _ _).add channel _ _).add channel _ _

end Statistics

/-! ### Steps and what they count -/

/-- A warning that a note or a rest on a channel is too short. -/
def Warning.isShortage (channel : Channel) (w : Warning) : Bool :=
  w.kind = .unrepresentableDuration ∧ w.channel = some (channel.val : Int)

namespace Score

/-- The counters of a channel, apart from the rests that were noticed as too short. -/
def tally (s : Score) (channel : Channel) (counter : Counter) : Int :=
  (s.statistics.channel channel.val).get counter -
    if counter = .restsSkipped then s.warnings.countP (Warning.isShortage channel) else 0

/-- Nothing is counted before anything is written. -/
theorem tally_empty (channel : Channel) (counter : Counter) :
    ({} : Score).tally channel counter = 0 := by
  have hchannel : ({} : Score).statistics.channel channel.val = {} := rfl
  have hwarnings : ({} : Score).warnings = [] := rfl
  simp [tally, hchannel, hwarnings]

/-- From one score to another, notes and rests are counted as they are found. -/
structure Counts (found : List Found) (s s' : Score) : Prop where
  tally : ∀ channel counter, s'.tally channel counter =
    s.tally channel counter + (Counters.ofFound channel found).get counter
  balanced : s.statistics.Balanced → s'.statistics.Balanced

namespace Counts

variable {found more : List Found} {s s' s'' : Score}

/-- Two steps, one after the other. -/
theorem trans (h : Counts found s s') (h' : Counts more s' s'') : Counts (found ++ more) s s'' where
  tally channel counter := by
    rw [h'.tally, h.tally, Counters.get_ofFound_append, Int.add_assoc]
  balanced hs := h'.balanced (h.balanced hs)

/-- Counting does not depend on the order. -/
theorem perm (h : Counts found s s') (hperm : found.Perm more) : Counts more s s' where
  tally channel counter := by rw [h.tally, Counters.ofFound_perm hperm]
  balanced := h.balanced

/-- A step that neither counts nor notices anything. -/
theorem still (hstatistics : s'.statistics = s.statistics) (hnotices : s'.notices = s.notices) :
    Counts [] s s' where
  tally channel counter := by
    simp only [Score.tally, Score.warnings, hstatistics, hnotices, Counters.get_ofFound_nil,
      Int.add_zero]
  balanced hs := hstatistics ▸ hs

/-- From the start on, the statistics have what is found, and the rests that were noticed as too
short. -/
theorem channel_eq (h : Counts found {} s) (channel : Channel) :
    s.statistics.channel channel.val =
      { Counters.ofFound channel found with
        restsSkipped := s.warnings.countP (Warning.isShortage channel) } := by
  refine Counters.ext_get (fun counter => ?_)
  have htally := h.tally channel counter
  rw [tally_empty, Int.zero_add, Score.tally] at htally
  cases counter
  case restsSkipped =>
    have hnone : (Counters.ofFound channel found).get .restsSkipped = 0 := rfl
    rw [if_pos rfl, hnone] at htally
    exact Int.sub_eq_zero.mp htally
  all_goals simpa [Counters.get] using htally

/-- Changes of parts count nothing. -/
theorem steady : Steady (Counts []) where
  trans h h' := h.trans h'
  modify _ _ := still rfl rfl

/-- Nothing is written. -/
theorem refl (s : Score) : Counts [] s s := steady.refl s

/-- Something is noticed, but no shortage. -/
theorem addNotice {notice : Notice}
    (h : ∀ w channel, notice = .warning w → w.isShortage channel = false) (s : Score) :
    Counts [] s (s.addNotice notice) where
  tally channel counter := by
    have hnone : notice.warning?.toList.countP (Warning.isShortage channel) = 0 := by
      cases notice with
      | noMarker tick slice => rfl
      | warning w => simp [Notice.warning?, h w channel rfl]
    have hstatistics : (s.addNotice notice).statistics = s.statistics := rfl
    simp only [Score.tally, warnings_addNotice, List.countP_append, hnone, Nat.add_zero,
      hstatistics, Counters.get_ofFound_nil, Int.add_zero]
  balanced hs := hs

/-- A note or a rest is counted. -/
theorem count (f : Found) (s : Score) :
    Counts [f] s { s with
      statistics := s.statistics.count f.channel.val f.item (Length.tokens f.length) } where
  tally channel counter := by
    have hwarnings : ({ s with
        statistics := s.statistics.count f.channel.val f.item (Length.tokens f.length) } :
          Score).warnings = s.warnings := rfl
    simp only [Score.tally, hwarnings, Statistics.get_channel_count]
    omega
  balanced hs := hs.count _ _ _

/-- Moving a part on counts nothing. -/
theorem advance (id : PartId) (tick : Int) (s : Score) : Counts [] s (s.advance id tick) :=
  steady.modify s _

/-- A rest that is too short is noticed and skipped. -/
theorem skip (id : PartId) (ticks tick : Int) (s : Score) :
    Counts [] s { s.warn (restWarning id ticks tick) with
      statistics := s.statistics.add id.channel.val .restsSkipped 1 } where
  tally channel counter := by
    have hshortage : (restWarning id ticks tick).isShortage channel =
        decide (id.channel = channel) := by
      simp [Warning.isShortage, restWarning, Fin.ext_iff]
    have hwarnings : ({ s.warn (restWarning id ticks tick) with
        statistics := s.statistics.add id.channel.val .restsSkipped 1 } :
          Score).warnings = s.warnings ++ [restWarning id ticks tick] := warnings_warn s _
    simp only [Score.tally, hwarnings, Statistics.get_channel_add, Channel.val_eq_val,
      List.countP_append, List.countP_singleton, hshortage, Counters.get_ofFound_nil]
    by_cases hchannel : id.channel = channel <;> by_cases hcounter : counter = .restsSkipped
    · simp only [hchannel, hcounter, and_self, if_true, decide_true]
      omega
    · simp [hchannel, hcounter, Ne.symm hcounter]
    · simp [hchannel]
    · simp [hchannel]
  balanced hs := hs.add _ _ _

end Counts

/-! ### Rests -/

variable {p : Plan} {s s' : Score}

/-- Selecting a part counts nothing. -/
theorem counts_select (id : PartId) (s : Score) : Counts [] s (s.select id) := by
  unfold select
  split
  · exact Counts.refl s
  · exact Counts.still rfl rfl

/-- A rest counts itself, or a skipped rest if it is too short. -/
theorem counts_rest (hp : p.tables.Proper) (id : PartId) (ticks tick : Int) (s : Score) :
    Counts (Found.ofRest id (p.tables.restText? ticks)) s (s.rest p id ticks tick).2 := by
  unfold rest LengthTables.restText?
  by_cases hgap : ticks ≤ 0
  · rw [if_pos hgap, if_pos (Or.inl hgap)]
    exact Counts.refl s
  · rw [if_neg hgap]
    by_cases hnil : p.tables.restSummands ticks = []
    · rw [if_pos (Or.inr hnil), if_pos hnil]
      exact Counts.skip id ticks tick s
    · rw [if_neg (not_or.mpr ⟨hgap, hnil⟩), if_neg hnil]
      have htokens := hp.rests_ofLadder.tokens_text
        (fun e he => LengthTables.mem_of_mem_restSummands he) hnil
      have hcount := Counts.count
        ⟨id.channel, .rest, LengthTable.text (p.tables.restSummands ticks)⟩ s
      rw [htokens] at hcount
      exact hcount.trans (Counts.steady.modify _ _)

/-- A rest up to a tick counts itself. -/
theorem counts_restUpTo (hp : p.tables.Proper) (id : PartId) (tick : Int) (s : Score) :
    Counts (Found.ofRest id (s.restUpTo p id tick).1) s (s.restUpTo p id tick).2 := by
  unfold restUpTo
  dsimp only
  split
  · rw [(rest_alters p id _ _ s).1]
    simpa using (counts_rest hp id _ _ s).trans (Counts.advance id tick _)
  · exact Counts.refl s

/-- A rest inside a chord counts itself. -/
theorem counts_restInChord (hp : p.tables.Proper) (id : PartId) (c : Chord) (s : Score) :
    Counts (Found.ofRest id (c.rest? p.tables)) s
      (s.restInChord p id c.tick c.cut? c.noteEnd).2 := by
  unfold restInChord Chord.rest?
  cases hcut : c.cut? with
  | none => exact Counts.refl s
  | some cut =>
    have hrest := counts_rest hp id (cut - c.tick) c.tick s
    rw [Option.bind_some]
    cases hstep : s.rest p id (cut - c.tick) c.tick with
    | mk length s' =>
      rw [hstep] at hrest
      cases length <;> simpa only [hstep] using hrest

/-! ### Chords -/

/-- A tone with tokens of its own, which are found again in its length. -/
def Tone.Tied (tone : Tone) : Prop :=
  tone.written.tokens ≠ [] ∧ Length.tokens tone.written.text = tone.written.tokens

/-- The notes of a group get lengths with tokens. -/
theorem tied_tones (hp : p.tables.Proper) (next : Option Int) (g : Group) :
    ∀ tone ∈ tones p next g, tone.Tied := by
  intro tone htone
  obtain ⟨n, _, rfl⟩ := List.mem_map.mp htone
  have hne := hp.noteSummands_fit_ne_nil (n.2.offTick - g.tick) (next.map (fun n => n - g.tick))
  refine ⟨by simpa [LengthTables.write] using hne, ?_⟩
  exact hp.notes_ofLadder.tokens_text (fun e he => LengthTables.mem_of_mem_noteSummands he) hne

/-- Tones are counted as the notes that they are. -/
theorem counts_countTones (channel : Channel) (tick : Int) {tones : List Tone}
    (h : ∀ tone ∈ tones, tone.Tied) (s : Score) :
    Counts (Found.ofTones channel tones) s (s.countTones channel.val tick tones) := by
  induction tones generalizing s with
  | nil => exact Counts.refl s
  | cons tone rest ih =>
    obtain ⟨hne, htokens⟩ := h tone List.mem_cons_self
    have hfirst : Counts [⟨channel, .note, tone.written.text⟩] s
        (countTone channel.val tick s tone) := by
      rw [countTone, if_neg hne, ← htokens]
      exact Counts.count ⟨channel, .note, tone.written.text⟩ s
    exact hfirst.trans (ih (fun tone' h' => h tone' (List.mem_cons_of_mem _ h')) _)

end Score

namespace Writing

open Score

variable {p : Plan} {c : Chord} {id : PartId} {s s' : Score}

/-- Entering a chord counts its notes and the rest before it. -/
theorem counts_enter (hp : p.Proper) (htied : ∀ tone ∈ c.tones, tone.Tied) {jump : Option Int}
    {gap : Option String} (h : Writes (enter p c) s (id, jump, gap) s') :
    Counts (Found.ofTones c.channel c.tones ++ Found.ofRest id gap) s s' := by
  obtain ⟨_, s₀, ⟨⟩, h⟩ := h.exists_bind
  obtain ⟨id', s₁, hpart, h⟩ := h.exists_bind
  obtain ⟨jump', s₂, hjump, h⟩ := h.exists_bind
  obtain ⟨gap', s₃, hgap, h⟩ := h.exists_bind
  cases h
  have hnotes := counts_countTones c.channel c.tick htied s
  have hselected : Counts [] (s.countTones c.channel.val c.tick c.tones) s₁ := by
    rcases partFor_cases hpart with ⟨rfl, _⟩ | ⟨_, rfl⟩
    · exact Counts.refl _
    · exact Counts.still rfl rfl
  have hjumped := Along.jump Counts.steady c.slice id hjump
  have hrested := counts_restUpTo hp.tables id c.tick s₂
  obtain ⟨rfl, rfl⟩ := (Writes.of _ s₂).unique hgap
  simpa using ((hnotes.trans hselected).trans hjumped).trans hrested

/-- Sounding a chord counts the rest inside it. -/
theorem counts_sound (hp : p.tables.Proper) {jump : Option Int} {gap : Option String}
    (h : Writes (sound p c id jump gap) s () s') :
    Counts (Found.ofRest id (c.rest? p.tables)) s s' := by
  obtain ⟨attributes, s₁, hattributes, h⟩ := h.exists_bind
  obtain ⟨notes, s₂, hnotes, h⟩ := h.exists_bind
  obtain ⟨⟨rests, chordEnd⟩, s₃, hrest, h⟩ := h.exists_bind
  have hattributed := Along.attributes Counts.steady p id c.tones hattributes
  have hnoted := Along.mapM Counts.steady (Along.note Counts.steady id) c.tones hnotes
  have hrested := counts_restInChord hp id c s₂
  have hs₃ : (s₂.restInChord p id c.tick c.cut? c.noteEnd).2 = s₃ :=
    ((Writes.of _ s₂).unique hrest).2
  rw [hs₃] at hrested
  have hadded : Counts [] s₃ s' := by
    cases h
    exact Counts.still rfl rfl
  simpa using ((hattributed.trans hnoted).trans hrested).trans hadded

end Writing

end Transcription
