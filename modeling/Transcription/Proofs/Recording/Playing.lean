import Transcription.Proofs.Recording.Additions

/-!
# Notes in the tracks of a file

A file plays a note by two messages, one that strikes it and one that releases it. However these are
divided among the tracks, and however messages of one tick are ordered, the file makes the marks of
its notes. So its recording has the strikes, the presses and the end that the notes have when they
are added one after the other.
-/

namespace Transcription

namespace Midi

open Recording (Mark)

/-! ### Messages at their ticks -/

/-- The messages of a track with their ticks, where the track stands at a tick. -/
def timedFrom (tick : Int) : List TrackEvent → List (Int × Message)
  | [] => []
  | e :: rest => (tick + e.delta, e.message) :: timedFrom (tick + e.delta) rest

/-- All messages of a file with their ticks. -/
def File.timed (f : File) : List (Int × Message) := f.tracks.flatMap (timedFrom 0)

/-- The mark of a message at a tick. Commands have none here, for they may be refused. -/
def Message.mark? (tick : Int) : Message → Option Mark
  | noteOn channel note velocity =>
    some (if 0 < velocity then .strike channel tick note velocity else .release channel tick note)
  | noteOff channel note => some (.release channel tick note)
  | program channel number => some (.program channel tick number)
  | tempo _ | key _ | other => none

/-- The marks of messages at their ticks. -/
def marksOf (timed : List (Int × Message)) : List Mark :=
  timed.filterMap (fun e => e.2.mark? e.1)

/-- Every message has a mark. -/
def AllMark (timed : List (Int × Message)) : Prop := ∀ e ∈ timed, ∃ m, e.2.mark? e.1 = some m

/-- A message makes its mark. -/
theorem Message.record_of_mark? {message : Message} {tick : Int} {m : Mark}
    (h : message.mark? tick = some m) (r : Recording) : message.record tick r = .ok (r.mark m) := by
  cases message with
  | noteOn channel note velocity =>
    cases h
    simp only [record]
    split
    · rfl
    · rfl
  | noteOff channel note => cases h; rfl
  | program channel number => cases h; rfl
  | tempo | key | other => cases h

/-- A message and its mark are at one tick. -/
theorem Message.tick_of_mark? {message : Message} {tick : Int} {m : Mark}
    (h : message.mark? tick = some m) : m.tick = tick := by
  cases message with
  | noteOn channel note velocity =>
    cases h
    split
    · rfl
    · rfl
  | noteOff channel note => cases h; rfl
  | program channel number => cases h; rfl
  | tempo | key | other => cases h

/-- The ticks of messages are those of their marks. -/
theorem mem_ticks_marksOf {timed : List (Int × Message)} (hall : AllMark timed) (tick : Int) :
    tick ∈ timed.map Prod.fst ↔ ∃ m ∈ marksOf timed, m.tick = tick := by
  constructor
  · intro htick
    obtain ⟨e, he, rfl⟩ := List.mem_map.mp htick
    obtain ⟨m, hm⟩ := hall e he
    exact ⟨m, List.mem_filterMap.mpr ⟨e, he, hm⟩, Message.tick_of_mark? hm⟩
  · rintro ⟨m, hm, rfl⟩
    obtain ⟨e, he, hm⟩ := List.mem_filterMap.mp hm
    exact List.mem_map.mpr ⟨e, he, (Message.tick_of_mark? hm).symm⟩

/-! ### Recording marks -/

/-- The rest of a track makes the marks of its messages. -/
theorem foldlM_record {track : List TrackEvent} {p : Progress}
    (hall : AllMark (timedFrom p.tick track)) :
    ∃ tick, track.foldlM TrackEvent.record p =
      .ok ⟨tick, ((timedFrom p.tick track).map Prod.fst).foldl max p.last,
        p.recording.markAll (marksOf (timedFrom p.tick track))⟩ := by
  induction track generalizing p with
  | nil => exact ⟨p.tick, rfl⟩
  | cons e track ih =>
    obtain ⟨m, hm⟩ := hall _ List.mem_cons_self
    have hrecord : e.record p =
        .ok ⟨p.tick + e.delta, max p.last (p.tick + e.delta), p.recording.mark m⟩ := by
      rw [TrackEvent.record, Message.record_of_mark? hm]
      rfl
    have hmarks : marksOf (timedFrom p.tick (e :: track)) =
        m :: marksOf (timedFrom (p.tick + e.delta) track) :=
      List.filterMap_cons_some hm
    obtain ⟨tick, hrest⟩ := ih (p := ⟨p.tick + e.delta, max p.last (p.tick + e.delta),
      p.recording.mark m⟩) (fun e' he' => hall e' (List.mem_cons_of_mem _ he'))
    refine ⟨tick, ?_⟩
    rw [List.foldlM_cons, hrecord, hmarks]
    exact hrest

/-- Tracks make the marks of all their messages. -/
theorem foldlM_recordTrack {tracks : List (List TrackEvent)} {p : Progress}
    (hall : AllMark (tracks.flatMap (timedFrom 0))) :
    ∃ tick, tracks.foldlM recordTrack p =
      .ok ⟨tick, ((tracks.flatMap (timedFrom 0)).map Prod.fst).foldl max p.last,
        p.recording.markAll (marksOf (tracks.flatMap (timedFrom 0)))⟩ := by
  induction tracks generalizing p with
  | nil => exact ⟨p.tick, rfl⟩
  | cons track tracks ih =>
    rw [List.flatMap_cons] at hall
    obtain ⟨tick, htrack⟩ := @foldlM_record track { p with tick := 0 }
      (fun e he => hall e (List.mem_append_left _ he))
    obtain ⟨tick', hrest⟩ :=
      ih (p := ⟨tick, _, _⟩) (fun e he => hall e (List.mem_append_right _ he))
    refine ⟨tick', ?_⟩
    rw [List.foldlM_cons, recordTrack, htrack]
    refine hrest.trans ?_
    simp only [List.flatMap_cons, marksOf, List.filterMap_append, List.map_append,
      List.foldl_append, Recording.markAll]

/-- A file all of whose messages make marks is recorded, and ends after its last message. -/
theorem File.record_eq {f : File} (htype : f.type ≠ 2) (hpos : 0 < f.resolution)
    (hall : AllMark f.timed) :
    f.record = .ok { Recording.markAll { resolution := f.resolution } (marksOf f.timed) with
      endTick := some ((f.timed.map Prod.fst).foldl max 0 + 1) } := by
  have hnew : Recording.new f.resolution none = .ok { resolution := f.resolution } :=
    Recording.new_eq_ok.mpr ⟨hpos, rfl⟩
  obtain ⟨tick, hok⟩ := foldlM_recordTrack (p := ⟨0, 0, { resolution := f.resolution }⟩) hall
  refine bind_eq_ok.mpr ⟨(_, (f.timed.map Prod.fst).foldl max 0), ?_, rfl⟩
  rw [recordAll, if_neg htype]
  exact bind_eq_ok.mpr ⟨_, hnew, bind_eq_ok.mpr ⟨_, hok, rfl⟩⟩

/-! ### Notes by their messages -/

/-- A note with its length. -/
structure HeldNote where
  /-- The channel on which it is played. -/
  channel : Int
  /-- The tick at which it is struck. -/
  tick : Int
  /-- Its pitch. -/
  pitch : Int
  /-- How hard it is struck. -/
  velocity : Int
  /-- After how many ticks it is released. -/
  length : Int
  deriving DecidableEq

namespace HeldNote

/-- The note as it is added to a recording. -/
def addition (n : HeldNote) : Recording.Addition :=
  .note n.channel n.tick n.pitch n.velocity n.length

/-- What tells a note from others: its channel, its tick and its pitch. -/
def place (n : HeldNote) : Int × Int × Int := (n.channel, n.tick, n.pitch)

/-- The message that strikes the note, and one that releases it: one of its own, or a strike without
velocity. -/
def WrittenAs (n : HeldNote) (messages : List (Int × Message)) : Prop :=
  ∃ release, (release = .noteOff n.channel n.pitch ∨ release = .noteOn n.channel n.pitch 0) ∧
    messages = [(n.tick, .noteOn n.channel n.pitch n.velocity), (n.tick + n.length, release)]

/-- The messages of a note make its marks. -/
theorem WrittenAs.marks {n : HeldNote} {messages : List (Int × Message)}
    (h : n.WrittenAs messages) (hvelocity : 0 < n.velocity) :
    messages.map (fun e => e.2.mark? e.1) = n.addition.marks.map some := by
  obtain ⟨release, hrelease | hrelease, rfl⟩ := h
  · subst hrelease
    simp [Message.mark?, addition, Recording.Addition.marks, hvelocity]
  · subst hrelease
    simp [Message.mark?, addition, Recording.Addition.marks, hvelocity]

end HeldNote

/-- The tracks of a file play notes: they have the messages of the notes, divided among the tracks
and ordered in any way, and no others. -/
def File.Plays (f : File) (notes : List HeldNote) : Prop :=
  ∃ messages, List.Forall₂ HeldNote.WrittenAs notes messages ∧ f.timed.Perm messages.flatten

variable {f : File} {notes : List HeldNote}

/-- A file that plays notes makes their marks, in some order. -/
theorem File.Plays.marks (h : f.Plays notes) (hvelocity : ∀ n ∈ notes, 0 < n.velocity) :
    AllMark f.timed ∧
      (marksOf f.timed).Perm ((notes.map HeldNote.addition).flatMap Recording.Addition.marks) := by
  obtain ⟨messages, hwritten, hperm⟩ := h
  have hmarks : messages.flatten.map (fun e => e.2.mark? e.1) =
      ((notes.map HeldNote.addition).flatMap Recording.Addition.marks).map some := by
    clear hperm
    induction hwritten with
    | nil => rfl
    | cons hn _ ih =>
      rw [List.forall_mem_cons] at hvelocity
      rw [List.flatten_cons, List.map_append, hn.marks hvelocity.1, ih hvelocity.2, List.map_cons,
        List.flatMap_cons, List.map_append]
  have hfile := hperm.map (fun e => e.2.mark? e.1)
  rw [hmarks] at hfile
  constructor
  · intro e he
    obtain ⟨m, -, hm⟩ := List.mem_map.mp (hfile.mem_iff.mp (List.mem_map_of_mem he))
    exact ⟨m, hm.symm⟩
  · have hkept := hfile.filterMap id
    rw [List.filterMap_map, List.filterMap_map] at hkept
    exact hkept.trans (.of_eq List.filterMap_some)

/-- Notes at different places give values to different things. -/
theorem nodup_slots (hplaces : (notes.map HeldNote.place).Nodup) :
    ((notes.map HeldNote.addition).map Recording.Addition.slot).Nodup := by
  have hslot : Recording.Addition.slot ∘ HeldNote.addition =
      (fun p => Recording.Slot.note p.1 p.2.1 p.2.2) ∘ HeldNote.place := rfl
  rw [List.map_map, hslot, ← List.map_map]
  refine hplaces.map ?_
  rintro ⟨channel, tick, pitch⟩ ⟨channel', tick', pitch'⟩ heq
  cases heq
  rfl

/-- **Files play notes as they are added.** A file that plays notes, of which no two have one
channel, one tick and one pitch, is recorded. In whatever order the notes are added to an empty
recording, the strikes, the presses and the last tick are those of the file. -/
theorem plays_as_added (htype : f.type ≠ 2) (hpos : 0 < f.resolution) (hplays : f.Plays notes)
    (hvelocity : ∀ n ∈ notes, 0 < n.velocity) (hplaces : (notes.map HeldNote.place).Nodup) :
    ∃ r, f.record = .ok r ∧ ∀ resolution, ∀ order : List HeldNote, order.Perm notes →
      let added := Recording.addAll { resolution } (order.map HeldNote.addition)
      r.strikes = added.strikes ∧ r.presses = added.presses ∧ r.lastTick = added.lastTick := by
  obtain ⟨hall, hperm⟩ := hplays.marks hvelocity
  refine ⟨_, File.record_eq htype hpos hall, fun resolution order horder => ?_⟩
  have hadded : (marksOf f.timed).Perm
      ((order.map HeldNote.addition).flatMap Recording.Addition.marks) :=
    hperm.trans ((horder.map HeldNote.addition).flatMap_right _).symm
  have hagree : ∀ m ∈ marksOf f.timed, ∀ k ∈ marksOf f.timed, m.Agrees k := fun m hm k hk =>
    Recording.agrees_of_nodup (nodup_slots hplaces) m (hperm.mem_iff.mp hm) k (hperm.mem_iff.mp hk)
  have hsame := Recording.markAll_perm hadded hagree { resolution }
  simp only [Recording.addAll_eq_markAll, ← hsame]
  refine ⟨?_, ?_, ?_⟩
  · simp only [Recording.markAll_eq]
  · simp only [Recording.markAll_eq]
  · have hend : (Recording.markAll { resolution } (marksOf f.timed)).endTick = none := by
      rw [Recording.markAll_eq]
    simp only [Recording.lastTick, hend, Option.getD_some, Option.getD_none]
    rw [Recording.foldl_max_congr (fun tick => ?_) 0]
    rw [mem_ticks_marksOf hall, Recording.mem_ticks_markAll]
    simp [Recording.ticks, Table.values, Table.keys, Table.empty]

/-- A pitch that is struck again while it sounds, and once more where it is first released. -/
def restruckNotes : List HeldNote :=
  [⟨0, 0, 60, 100, 480⟩, ⟨0, 480, 60, 90, 240⟩, ⟨0, 240, 60, 80, 480⟩]

/-- The same notes in two tracks. The first track releases the pitch before the second one strikes
it. -/
def restruckFile : File where
  type := 1
  resolution := 480
  tracks :=
    [[⟨480, .noteOff 0 60⟩, ⟨240, .noteOn 0 60 0⟩],
      [⟨0, .noteOn 0 60 100⟩, ⟨240, .noteOn 0 60 80⟩, ⟨240, .noteOn 0 60 90⟩, ⟨240, .noteOff 0 60⟩]]

/-- The file plays the notes as if they were added from the last one to the first one: the strike at
the tick of a release counts, and the end comes after the second release. -/
theorem plays_as_added_restruck :
    ∃ r, restruckFile.record = .ok r ∧
      r.strikes = (Recording.addAll { resolution := 96 }
        (restruckNotes.reverse.map HeldNote.addition)).strikes ∧
      (r.pressesOf 0 60).entries = [(0, true), (240, true), (480, true), (720, false)] ∧
      r.lastTick = 721 := by
  have hplays : restruckFile.Plays restruckNotes :=
    ⟨[[(0, .noteOn 0 60 100), (480, .noteOff 0 60)],
        [(480, .noteOn 0 60 90), (720, .noteOn 0 60 0)],
        [(240, .noteOn 0 60 80), (720, .noteOff 0 60)]],
      .cons ⟨_, Or.inl rfl, rfl⟩ (.cons ⟨_, Or.inr rfl, rfl⟩ (.cons ⟨_, Or.inl rfl, rfl⟩ .nil)),
      by decide +kernel⟩
  obtain ⟨r, hrecord, hadded⟩ :=
    plays_as_added (by decide) (by decide) hplays (by decide) (by decide)
  obtain ⟨hstrikes, hpresses, hlast⟩ := hadded 96 _ (List.reverse_perm restruckNotes)
  refine ⟨r, hrecord, hstrikes, ?_, hlast.trans (by decide +kernel)⟩
  rw [Recording.pressesOf, hpresses]
  decide +kernel

end Midi

end Transcription
