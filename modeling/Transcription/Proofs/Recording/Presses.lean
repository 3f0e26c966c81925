import Transcription.Proofs.Recording.WellFormed
import Transcription.Recording.Source

/-!
# Presses and strikes

Whatever a recording is made of, it is struck, released, chosen and commanded step by step. Every
one of these steps keeps presses and strikes together: a pitch is pressed at a tick exactly if it is
struck there, since a release gives way to a strike at its tick.
-/

namespace Transcription

namespace Recording

variable {allowed : Int → Prop} {r r' : Recording}

/-! ### Steps of recording -/

/-- A recording that is made from an empty one step by step, with strikes and programs on allowed
channels only. -/
inductive Made (allowed : Int → Prop) : Recording → Prop
  /-- Nothing is recorded yet. -/
  | new (resolution : Int) (endTick : Option Int) : Made allowed { resolution, endTick }
  /-- A note is struck. -/
  | strike {r : Recording} {channel : Int} (h : Made allowed r) (hchannel : allowed channel)
    (tick note velocity : Int) : Made allowed (r.strike channel tick note velocity)
  /-- A note is released. -/
  | release {r : Recording} (h : Made allowed r) (channel tick note : Int) :
    Made allowed (r.release channel tick note)
  /-- A program is chosen. -/
  | program {r : Recording} {channel : Int} (h : Made allowed r) (hchannel : allowed channel)
    (tick program : Int) : Made allowed (r.addProgram channel tick program)
  /-- A global command is given. -/
  | command {r : Recording} (h : Made allowed r) (tick : Int) (name value : String) :
    Made allowed (r.setCommand tick name value)
  /-- The end of the sequence is said. -/
  | ending {r : Recording} (h : Made allowed r) (endTick : Option Int) :
    Made allowed { r with endTick }

/-- The channel of an addition, if it has one, is allowed. -/
def Addition.Allowed (allowed : Int → Prop) : Addition → Prop
  | note channel _ _ _ _ | program channel _ _ => allowed channel
  | command _ _ _ => True

/-- An addition to an allowed channel is made in steps. -/
theorem Addition.made {a : Addition} (hmade : r.Made allowed) (ha : a.Allowed allowed)
    (hok : a.addTo r = .ok r') : r'.Made allowed := by
  cases a with
  | note channel tick pitch velocity length =>
    cases hok
    exact (hmade.strike ha tick pitch velocity).release channel (tick + length) pitch
  | program channel tick number =>
    cases hok
    exact hmade.program ha tick number
  | command tick name value =>
    simp only [addTo, addCommand] at hok
    split at hok
    · cases hok
      exact hmade.command tick name value
    · cases hok

/-- Additions to allowed channels are made in steps, whichever of them are refused. -/
theorem made_addAll {additions : List Addition} (hmade : r.Made allowed)
    (hall : ∀ a ∈ additions, a.Allowed allowed) : (r.addAll additions).Made allowed := by
  unfold addAll
  induction additions generalizing r with
  | nil => exact hmade
  | cons a rest ih =>
    have hstep : ((a.addTo r).toOption.getD r).Made allowed := by
      cases hadded : a.addTo r with
      | error e => exact hmade
      | ok r₁ => exact Addition.made hmade (hall a List.mem_cons_self) hadded
    exact ih hstep (fun b hb => hall b (List.mem_cons_of_mem _ hb))

end Recording

namespace Midi

variable {allowed : Int → Prop}

/-- The channel of a message, if it strikes or chooses, is allowed. -/
def Message.Allowed (allowed : Int → Prop) : Message → Prop
  | noteOn channel _ _ | program channel _ => allowed channel
  | noteOff _ _ | tempo _ | key _ | other => True

/-- A message on an allowed channel is one step. -/
theorem Message.made {m : Message} {tick : Int} {r r' : Recording} (hmade : r.Made allowed)
    (hm : m.Allowed allowed) (hok : m.record tick r = .ok r') : r'.Made allowed := by
  cases m with
  | noteOn channel note velocity =>
    cases hok
    split
    · exact hmade.strike hm tick note velocity
    · exact hmade.release channel tick note
  | noteOff channel note =>
    cases hok
    exact hmade.release channel tick note
  | program channel number =>
    cases hok
    exact hmade.program hm tick number
  | tempo microseconds =>
    obtain ⟨text, _, hok⟩ := bind_eq_ok.mp hok
    cases hok
    exact hmade.command tick _ text
  | key name =>
    obtain ⟨key, _, hok⟩ := bind_eq_ok.mp hok
    cases hok
    exact hmade.command tick _ key.descriptor
  | other =>
    cases hok
    exact hmade

/-- A track whose messages are on allowed channels is recorded step by step. -/
theorem recordTrack_made {track : List TrackEvent} {p p' : Progress}
    (hmade : p.recording.Made allowed) (hall : ∀ e ∈ track, e.message.Allowed allowed)
    (hok : recordTrack p track = .ok p') : p'.recording.Made allowed := by
  have hstart : ({ p with tick := 0 } : Progress).recording.Made allowed := hmade
  refine foldlM_invariant (P := fun p : Progress => p.recording.Made allowed) ?_ hstart hok
  intro p e he p' hp hrecord
  obtain ⟨r, hr, hrecord⟩ := bind_eq_ok.mp hrecord
  cases hrecord
  exact Message.made hp (hall e he) hr

/-- A file whose messages are on allowed channels is recorded step by step. -/
theorem File.made {f : File} {r : Recording}
    (hall : ∀ track ∈ f.tracks, ∀ e ∈ track, e.message.Allowed allowed)
    (hok : f.record = .ok r) : r.Made allowed := by
  obtain ⟨recorded, hrecorded, hok⟩ := bind_eq_ok.mp hok
  cases hok
  unfold recordAll at hrecorded
  split at hrecorded
  · cases hrecorded
  · obtain ⟨r₀, hnew, hrecorded⟩ := bind_eq_ok.mp hrecorded
    obtain ⟨p, htracks, hrecorded⟩ := bind_eq_ok.mp hrecorded
    cases hrecorded
    obtain ⟨-, rfl⟩ := Recording.new_eq_ok.mp hnew
    have hp : p.recording.Made allowed :=
      foldlM_invariant (P := fun p : Progress => p.recording.Made allowed)
        (fun _ track htrack _ hp => recordTrack_made hp (hall track htrack))
        (.new f.resolution none) htracks
    exact hp.ending _

end Midi

/-- Everything a source strikes or chooses is on an allowed channel. -/
def Source.Allowed (allowed : Int → Prop) : Source → Prop
  | additions _ _ added => ∀ a ∈ added, a.Allowed allowed
  | tracks f => ∀ track ∈ f.tracks, ∀ e ∈ track, e.message.Allowed allowed

/-- What is recorded from a source on allowed channels is made step by step. -/
theorem Source.made {allowed : Int → Prop} {source : Source} {r : Recording}
    (hall : source.Allowed allowed) (hok : source.record = .ok r) : r.Made allowed := by
  cases source with
  | additions resolution endTick added =>
    obtain ⟨r₀, hnew, hok⟩ := bind_eq_ok.mp hok
    cases hok
    obtain ⟨-, rfl⟩ := Recording.new_eq_ok.mp hnew
    exact Recording.made_addAll (.new resolution endTick) hall
  | tracks f => exact f.made hall hok

namespace Recording

variable {allowed : Int → Prop} {r : Recording}

/-! ### What all steps keep -/

/-- Setting the presses of a pitch changes no others. -/
theorem pressesOf_setPresses (r : Recording) (channel note : Int) (presses : Presses)
    (channel' note' : Int) : (r.setPresses channel note presses).pressesOf channel' note' =
      if channel = channel' ∧ note = note' then presses else r.pressesOf channel' note' := by
  unfold pressesOf setPresses
  simp only [Table.get?_insert]
  by_cases hchannel : channel = channel'
  · by_cases hnote : note = note'
    · simp [hchannel, hnote, Table.get?_insert]
    · simp [hchannel, hnote, Table.get?_insert]
  · simp [hchannel]

/-- Setting the notes struck at a tick changes no others. -/
theorem struckAt_setStruck (r : Recording) (channel tick : Int) (notes : Table Int Int)
    (channel' tick' : Int) : (r.setStruck channel tick notes).struckAt channel' tick' =
      if channel = channel' ∧ tick = tick' then notes else r.struckAt channel' tick' := by
  unfold struckAt
  rw [strikesOn_setStruck]
  by_cases hchannel : channel = channel'
  · by_cases htick : tick = tick'
    · simp [hchannel, htick, Table.get?_insert]
    · simp [hchannel, htick, Table.get?_insert]
  · simp [hchannel]

/-- A pitch is pressed at a tick exactly if it is struck there. -/
def PressesMatch (r : Recording) : Prop :=
  ∀ channel note tick, (r.pressesOf channel note).get? tick = some true ↔
    note ∈ (r.struckAt channel tick).keys

/-- A strike presses its pitch at its tick. -/
theorem PressesMatch.strike (h : r.PressesMatch) (channel tick note velocity : Int) :
    (r.strike channel tick note velocity).PressesMatch := by
  intro channel' note' tick'
  have hstruck : (r.strike channel tick note velocity).struckAt channel' tick' =
      if channel = channel' ∧ tick = tick' then (r.struckAt channel tick).insert note velocity
      else r.struckAt channel' tick' := struckAt_setStruck r ..
  have hold : (r.setStruck channel tick ((r.struckAt channel tick).insert note velocity)).pressesOf
      channel' note' = r.pressesOf channel' note' := rfl
  rw [hstruck, Recording.strike, pressesOf_setPresses, hold]
  by_cases hchannel : channel = channel'
  · subst hchannel
    by_cases hnote : note = note'
    · subst hnote
      by_cases htick : tick = tick'
      · simp [htick, Table.get?_insert, Table.mem_keys_insert]
      · simpa [htick, Table.get?_insert] using h channel note tick'
    · by_cases htick : tick = tick'
      · subst htick
        simpa [hnote, Ne.symm hnote, Table.mem_keys_insert] using h channel note' tick
      · simpa [hnote, htick] using h channel note' tick'
  · simpa [hchannel] using h channel' note' tick'

/-- A release takes no press away. -/
theorem PressesMatch.release (h : r.PressesMatch) (channel tick note : Int) :
    (r.release channel tick note).PressesMatch := by
  intro channel' note' tick'
  have hstruck : (r.release channel tick note).struckAt channel' tick' =
      r.struckAt channel' tick' := by
    obtain ⟨presses, heq⟩ := r.release_eq channel tick note
    rw [heq]
    rfl
  rw [hstruck, ← h channel' note' tick']
  simp only [Recording.release]
  split
  · exact Iff.rfl
  · rename_i hnot
    rw [pressesOf_setPresses]
    split
    · rename_i hsame
      obtain ⟨rfl, rfl⟩ := hsame
      rw [Table.get?_insert]
      split
      · rename_i htick
        subst htick
        simp [hnot]
      · exact Iff.rfl
    · exact Iff.rfl

/-- In whatever is made step by step, a pitch is pressed at a tick exactly if it is struck there. -/
theorem Made.pressesMatch (h : r.Made allowed) : r.PressesMatch := by
  induction h with
  | new resolution endTick =>
    intro channel note tick
    simp [pressesOf, struckAt, strikesOn, Table.keys, Table.empty, Table.get?]
  | strike _ _ tick note velocity ih => exact ih.strike _ tick note velocity
  | release _ channel tick note ih => exact ih.release channel tick note
  | program _ _ _ _ ih => exact ih
  | command _ _ _ _ ih => exact ih
  | ending _ _ ih => exact ih

/-- What is made has its strikes and its programs on allowed channels. -/
theorem Made.channels (h : r.Made allowed) {channel : Int} (hmem : channel ∈ r.channels) :
    allowed channel := by
  rw [mem_channels] at hmem
  induction h with
  | new => exact absurd hmem (by simp [Table.keys, Table.empty])
  | strike _ hchannel _ _ _ ih =>
    rcases hmem with hmem | hmem
    · rcases Table.mem_keys_insert.mp hmem with rfl | hmem
      · exact hchannel
      · exact ih (Or.inl hmem)
    · exact ih (Or.inr hmem)
  | @release r _ c tick note ih =>
    obtain ⟨presses, heq⟩ := r.release_eq c tick note
    rw [heq] at hmem
    exact ih hmem
  | program _ hchannel _ _ ih =>
    rcases hmem with hmem | hmem
    · exact ih (Or.inl hmem)
    · rcases Table.mem_keys_insert.mp hmem with rfl | hmem
      · exact hchannel
      · exact ih (Or.inr hmem)
  | command _ _ _ _ ih => exact ih hmem
  | ending _ _ ih => exact ih hmem

end Recording

end Transcription
