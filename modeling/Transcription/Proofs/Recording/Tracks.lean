import Transcription.Midi.Message
import Transcription.Proofs.Recording.Marks

/-!
# Recordings of tracks

What the tracks of a file play is built like what a document says: every message strikes, releases,
chooses or commands within its ranges, and with deltas that are not negative no message comes before
the start of its track. The recording ends after the last message of all tracks, so nothing in it is
past its end.
-/

namespace Transcription.Midi

/-! ### Ranges -/

/-- A message whose fields are in their ranges. -/
def Message.InRange : Message → Prop
  | noteOn channel note velocity =>
    (0 ≤ channel ∧ channel ≤ 15) ∧ (0 ≤ note ∧ note ≤ 127) ∧ 0 ≤ velocity ∧ velocity ≤ 127
  | noteOff channel note => (0 ≤ channel ∧ channel ≤ 15) ∧ 0 ≤ note ∧ note ≤ 127
  | program channel number => (0 ≤ channel ∧ channel ≤ 15) ∧ 0 ≤ number ∧ number ≤ 127
  | tempo _ | key _ | other => True

/-- A message in its ranges that does not come before the one before it. -/
structure TrackEvent.InRange (e : TrackEvent) : Prop where
  delta : 0 ≤ e.delta
  message : e.message.InRange

/-- A file all of whose messages are in their ranges. -/
def File.InRange (f : File) : Prop := ∀ track ∈ f.tracks, ∀ e ∈ track, e.InRange

/-! ### Recording -/

/-- Recording a message in its ranges builds on what is there. -/
theorem Message.record_built {m : Message} {tick : Int} {r r' : Recording} (hbuilt : r.Built)
    (htick : 0 ≤ tick) (hm : m.InRange) (hok : m.record tick r = .ok r') : r'.Built := by
  cases m with
  | noteOn channel note velocity =>
    obtain ⟨hchannel, hnote, hvelocity⟩ := hm
    cases hok
    split
    · exact hbuilt.strike hchannel htick hnote ⟨by omega, hvelocity.2⟩
    · exact hbuilt.release channel tick note
  | noteOff channel note =>
    cases hok
    exact hbuilt.release channel tick note
  | program channel number =>
    cases hok
    exact hbuilt.program hm.1 htick hm.2
  | tempo microseconds =>
    obtain ⟨text, htext, hok⟩ := bind_eq_ok.mp hok
    obtain ⟨x, _, htext⟩ := bind_eq_ok.mp htext
    cases hok
    exact hbuilt.command htick (fun _ => Tempo.isText_of_text htext)
  | key name =>
    obtain ⟨key, _, hok⟩ := bind_eq_ok.mp hok
    cases hok
    exact hbuilt.command htick (fun heq => absurd heq (by decide))
  | other =>
    cases hok
    exact hbuilt

/-- What the recording of a track keeps: it stands at no negative tick, and what is recorded is
built. -/
structure Progress.Sound (p : Progress) : Prop where
  tick : 0 ≤ p.tick
  built : p.recording.Built

/-- The next message of a track is recorded. -/
theorem TrackEvent.record_sound {e : TrackEvent} {p p' : Progress} (hp : p.Sound) (he : e.InRange)
    (hok : e.record p = .ok p') : p'.Sound := by
  have htick := Int.add_nonneg hp.tick he.delta
  obtain ⟨r, hr, hok⟩ := bind_eq_ok.mp hok
  cases hok
  exact ⟨htick, Message.record_built hp.built htick he.message hr⟩

/-- A whole track is recorded from its start. -/
theorem recordTrack_sound {track : List TrackEvent} {p p' : Progress} (hp : p.Sound)
    (htrack : ∀ e ∈ track, e.InRange) (hok : recordTrack p track = .ok p') : p'.Sound := by
  unfold recordTrack at hok
  have hstart : Progress.Sound { p with tick := 0 } := ⟨Int.le_refl 0, hp.built⟩
  exact foldlM_invariant (fun _ e he _ hsound => TrackEvent.record_sound hsound (htrack e he))
    hstart hok

/-- What is recorded from a file in its ranges is built with every number in its range. -/
theorem File.record_built {f : File} {r : Recording} (hf : f.InRange) (hok : f.record = .ok r) :
    r.Built := by
  obtain ⟨recorded, hall, hok⟩ := bind_eq_ok.mp hok
  cases hok
  unfold recordAll at hall
  split at hall
  · cases hall
  · obtain ⟨r₀, hnew, hall⟩ := bind_eq_ok.mp hall
    obtain ⟨p, htracks, hall⟩ := bind_eq_ok.mp hall
    cases hall
    obtain ⟨hpos, rfl⟩ := Recording.new_eq_ok.mp hnew
    have hp : p.Sound := foldlM_invariant
      (fun _ track htrack _ hsound => recordTrack_sound hsound (hf track htrack))
      ⟨Int.le_refl 0, .new hpos⟩ htracks
    exact hp.built.ending _

/-! ### Ticks -/

/-- A message makes no mark, or one at its tick. -/
theorem Message.record_eq {m : Message} {tick : Int} {r r' : Recording}
    (hok : m.record tick r = .ok r') :
    r' = r ∨ ∃ mark : Recording.Mark, mark.tick = tick ∧ r' = r.mark mark := by
  cases m with
  | noteOn channel note velocity =>
    cases hok
    split
    · exact Or.inr ⟨.strike channel tick note velocity, rfl, rfl⟩
    · exact Or.inr ⟨.release channel tick note, rfl, rfl⟩
  | noteOff channel note =>
    cases hok
    exact Or.inr ⟨.release channel tick note, rfl, rfl⟩
  | program channel number =>
    cases hok
    exact Or.inr ⟨.program channel tick number, rfl, rfl⟩
  | tempo microseconds =>
    obtain ⟨text, _, hok⟩ := bind_eq_ok.mp hok
    cases hok
    exact Or.inr ⟨.command tick tempoCommand text, rfl, rfl⟩
  | key name =>
    obtain ⟨key, _, hok⟩ := bind_eq_ok.mp hok
    cases hok
    exact Or.inr ⟨.command tick keyCommand key.descriptor, rfl, rfl⟩
  | other =>
    cases hok
    exact Or.inl rfl

/-- What the recording of tracks keeps: everything is recorded from the start on and up to the last
tick so far. -/
structure Progress.Within (p : Progress) : Prop where
  tick : 0 ≤ p.tick
  recorded : ∀ tick ∈ p.recording.ticks, 0 ≤ tick ∧ tick ≤ p.last

/-- The next message of a track is recorded up to the new last tick. -/
theorem TrackEvent.record_within {e : TrackEvent} {p p' : Progress} (hp : p.Within)
    (he : 0 ≤ e.delta) (hok : e.record p = .ok p') : p'.Within := by
  have hnew := Int.add_nonneg hp.tick he
  obtain ⟨r, hr, hok⟩ := bind_eq_ok.mp hok
  cases hok
  have hold (tick : Int) (htick : tick ∈ p.recording.ticks) :
      0 ≤ tick ∧ tick ≤ max p.last (p.tick + e.delta) := by
    have := hp.recorded tick htick
    omega
  refine ⟨hnew, fun tick htick => ?_⟩
  rcases Message.record_eq hr with rfl | ⟨mark, hmark, rfl⟩
  · exact hold tick htick
  · rcases (Recording.mem_ticks_mark p.recording mark tick).mp htick with rfl | htick
    · rw [hmark]
      exact ⟨hnew, Int.le_max_right _ _⟩
    · exact hold tick htick

/-- A whole track is recorded up to the new last tick. -/
theorem recordTrack_within {track : List TrackEvent} {p p' : Progress} (hp : p.Within)
    (htrack : ∀ e ∈ track, 0 ≤ e.delta) (hok : recordTrack p track = .ok p') : p'.Within := by
  unfold recordTrack at hok
  have hstart : Progress.Within { p with tick := 0 } := ⟨Int.le_refl 0, hp.recorded⟩
  exact foldlM_invariant (fun _ e he _ hwithin => TrackEvent.record_within hwithin (htrack e he))
    hstart hok

/-- With deltas that are not negative everything is recorded between the start and the end. -/
theorem File.record_within {f : File} {r : Recording}
    (hf : ∀ track ∈ f.tracks, ∀ e ∈ track, 0 ≤ e.delta) (hok : f.record = .ok r) :
    ∀ tick ∈ r.ticks, 0 ≤ tick ∧ tick < r.lastTick := by
  obtain ⟨recorded, hall, hok⟩ := bind_eq_ok.mp hok
  cases hok
  unfold recordAll at hall
  split at hall
  · cases hall
  · obtain ⟨r₀, hnew, hall⟩ := bind_eq_ok.mp hall
    obtain ⟨p, htracks, hall⟩ := bind_eq_ok.mp hall
    cases hall
    obtain ⟨_, rfl⟩ := Recording.new_eq_ok.mp hnew
    have hstart : Progress.Within ⟨0, 0, { resolution := f.resolution }⟩ :=
      ⟨Int.le_refl 0, fun tick htick => nomatch htick⟩
    have hp : p.Within := foldlM_invariant
      (fun _ track htrack _ hwithin => recordTrack_within hwithin (hf track htrack)) hstart htracks
    intro tick htick
    have hrange := hp.recorded tick htick
    exact ⟨hrange.1, Int.lt_add_one_of_le hrange.2⟩

end Transcription.Midi
