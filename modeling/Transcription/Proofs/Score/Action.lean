import Transcription.Proofs.Slice.Filling
import Transcription.Transcript

/-!
# Scores as runs of actions

A score is written by calls: a slice is begun, its global settings are written, or the music of one
of its channels is. A call in turn is a list of actions that are known before anything is written,
and each chord is one of them. So what holds of a score at every point of its writing can be shown
action by action.
-/

namespace Transcription

/-- A chord that is about to be written. -/
structure Chord where
  /-- The slice in which the chord is struck. -/
  slice : Slice
  /-- The channel of the chord. -/
  channel : Channel
  /-- The tick at which the chord begins. -/
  tick : Int
  /-- The tick at which the next chord of the channel begins, if there is one in the slice. -/
  next : Option Int
  /-- The notes of the chord, from the lowest one up. -/
  tones : List Score.Tone

/-- One action in the writing of a score. -/
inductive Action where
  /-- Begin a slice under a number. -/
  | beginSlice (slice : Slice) (number : Int)
  /-- Write the global settings of a slice. -/
  | globals (slice : Slice)
  /-- Write an empty line. -/
  | blank
  /-- Declare or select the part that a channel plays at a tick. -/
  | change (channel : Channel) (tick : Int)
  /-- Write a chord. -/
  | chord (chord : Chord)

/-- One call in the writing of a score. -/
inductive Call where
  /-- Begin a slice under a number. -/
  | beginSlice (slice : Slice) (number : Int)
  /-- Write the global settings of a slice. -/
  | globals (slice : Slice)
  /-- Write the music of one channel in a slice. -/
  | channelBlock (slice : Slice) (channel : Channel)

namespace Action

/-- Perform an action. -/
def write (p : Plan) : Action → Writing Unit
  | beginSlice slice number => Writing.act (Score.beginSlice p slice number)
  | globals slice => Writing.act (Score.addGlobals slice)
  | blank => Writing.act (fun s => s.addLine .blank)
  | change channel tick => do
    let _ ← Writing.changePart p channel.val channel tick
  | chord c => do
    Writing.act (Score.countTones c.channel.val c.tick c.tones)
    Writing.chord p c.slice c.channel.val c.channel c.tick c.next c.tones

/-- The chord that an action writes, if it writes one. -/
def chord? : Action → Option Chord
  | chord c => some c
  | _ => none

end Action

namespace Group

/-- The chord of a group. -/
def chord (p : Plan) (slice : Slice) (channel : Channel) (groups : List Group) (g : Group) :
    Chord :=
  let next := nextOnset? groups g.tick
  { slice, channel, tick := g.tick, next, tones := Score.tones p next g }

/-- The actions for a group: the change of program first, then the notes. -/
def actions (p : Plan) (slice : Slice) (channel : Channel) (groups : List Group) (g : Group) :
    List Action :=
  (if g.first.change then [.change channel g.tick] else []) ++
    (if g.notes.entries = [] then [] else [.chord (g.chord p slice channel groups)])

end Group

/-- The groups of a channel in a slice. -/
def Slice.groups (p : Plan) (slice : Slice) (channel : Channel) : List Group :=
  Group.divide p.tables.shortestRest (slice.timelines.get channel)

namespace Call

/-- Make a call. -/
def write (p : Plan) : Call → Writing Unit
  | beginSlice slice number => Writing.act (Score.beginSlice p slice number)
  | globals slice => Writing.act (Score.addGlobals slice)
  | channelBlock slice channel => Writing.channelBlock p slice channel.val

/-- The actions of a call. -/
def actions (p : Plan) : Call → List Action
  | beginSlice slice number => [.beginSlice slice number]
  | globals slice => [.globals slice]
  | channelBlock slice channel =>
    if slice.timelines.get channel = [] then []
    else
      let groups := slice.groups p channel
      .blank :: groups.flatMap (Group.actions p slice channel groups)

/-- The slice of a call. -/
def slice : Call → Slice
  | beginSlice slice _ => slice
  | globals slice => slice
  | channelBlock slice _ => slice

/-- The calls for a slice. -/
def ofSlice (slice : Slice) (number : Int) : List Call :=
  .beginSlice slice number :: .globals slice ::
    (List.finRange channelCount).map (channelBlock slice)

/-- The calls for a slice are for this slice. -/
theorem slice_of_mem {current : Slice} {number : Int} {call : Call}
    (h : call ∈ ofSlice current number) : call.slice = current := by
  simp only [ofSlice, List.mem_cons, List.mem_map] at h
  rcases h with rfl | rfl | ⟨channel, _, rfl⟩ <;> rfl

/-- The calls for slices, one after the other. -/
def ofSlices (slices : List Slice) : List Call :=
  slices.zipIdx.flatMap (fun s => ofSlice s.1 (s.2 : Int))

end Call

/-- The actions for slices, one after the other. -/
def Plan.actions (p : Plan) (slices : List Slice) : List Action :=
  (Call.ofSlices slices).flatMap (Call.actions p)

/-- The actions for a group are a change of program and, if the group has notes, a chord. -/
theorem Group.mem_actions {p : Plan} {slice : Slice} {channel : Channel} {groups : List Group}
    {g : Group} {a : Action} (h : a ∈ g.actions p slice channel groups) :
    a = .change channel g.tick ∨
      g.notes.entries ≠ [] ∧ a = .chord (g.chord p slice channel groups) := by
  rcases List.mem_append.mp h with h | h
  · split at h
    · exact .inl (List.mem_singleton.mp h)
    · simp at h
  · split at h
    · simp at h
    · rename_i hnotes
      exact .inr ⟨hnotes, List.mem_singleton.mp h⟩

/-- The actions for a channel of a slice: an empty line, and those of its groups. -/
theorem Call.mem_channelBlock {p : Plan} {slice : Slice} {channel : Channel} {a : Action}
    (h : a ∈ (channelBlock slice channel).actions p) :
    a = .blank ∨ (∃ g ∈ slice.groups p channel, a = .change channel g.tick) ∨
      ∃ g ∈ slice.groups p channel, g.notes.entries ≠ [] ∧
        a = .chord (g.chord p slice channel (slice.groups p channel)) := by
  simp only [actions] at h
  split at h
  · simp at h
  · rcases List.mem_cons.mp h with rfl | h
    · exact .inl rfl
    · obtain ⟨g, hg, h⟩ := List.mem_flatMap.mp h
      rcases Group.mem_actions h with rfl | ⟨hnotes, rfl⟩
      · exact .inr (.inl ⟨g, hg, rfl⟩)
      · exact .inr (.inr ⟨g, hg, hnotes, rfl⟩)

/-- The actions for a slice under its number. -/
def Plan.sliceActions (p : Plan) (s : Slice × Nat) : List Action :=
  (Call.ofSlice s.1 (s.2 : Int)).flatMap (Call.actions p)

/-- The actions for slices are those for each slice, one after the other. -/
theorem Plan.actions_eq (p : Plan) (slices : List Slice) :
    p.actions slices = slices.zipIdx.flatMap p.sliceActions := by
  rw [actions, Call.ofSlices, List.flatMap_assoc]
  rfl

/-- The actions for a slice after its begin: its global settings and the music of its channels. -/
def Plan.content (p : Plan) (slice : Slice) : List Action :=
  .globals slice :: (List.finRange channelCount).flatMap
    (fun channel => (Call.channelBlock slice channel).actions p)

/-- The actions for a slice are its begin and its content. -/
theorem Plan.sliceActions_eq (p : Plan) (s : Slice × Nat) :
    p.sliceActions s = .beginSlice s.1 (s.2 : Int) :: p.content s.1 := by
  simp [sliceActions, Call.ofSlice, Call.actions, content, List.flatMap_map]

/-- The content of a slice has global settings, empty lines, changes, and the chords of groups with
notes. -/
theorem Plan.mem_content {p : Plan} {slice : Slice} {a : Action} (h : a ∈ p.content slice) :
    a = .globals slice ∨ a = .blank ∨ (∃ channel tick, a = .change channel tick) ∨
      ∃ channel, ∃ g ∈ slice.groups p channel, g.notes.entries ≠ [] ∧
        a = .chord (g.chord p slice channel (slice.groups p channel)) := by
  rcases List.mem_cons.mp h with rfl | h
  · exact .inl rfl
  · obtain ⟨channel, _, h⟩ := List.mem_flatMap.mp h
    rcases Call.mem_channelBlock h with rfl | ⟨g, _, rfl⟩ | ⟨g, hg, hnotes, rfl⟩
    · exact .inr (.inl rfl)
    · exact .inr (.inr (.inl ⟨channel, g.tick, rfl⟩))
    · exact .inr (.inr (.inr ⟨channel, g, hg, hnotes, rfl⟩))

/-! ### Performing lists of actions -/

namespace Writing

variable {p : Plan}

/-- To go through joined lists is to go through the lists one after the other. -/
theorem forM_flatMap {α β : Type} (l : List α) (f : α → List β) (step : β → Writing Unit) :
    (l.flatMap f).forM step = l.forM (fun a => (f a).forM step) := by
  induction l with
  | nil => rfl
  | cons a l ih =>
    simp only [List.forM_eq_forM] at ih ⊢
    rw [List.flatMap_cons, List.forM_append, List.forM_cons, ih]

/-- A group has no notes exactly if its chord has none. -/
theorem tones_eq_nil (p : Plan) (next : Option Int) (g : Group) :
    Score.tones p next g = [] ↔ g.notes.entries = [] := by
  simp [Score.tones]

/-- To write a group is to perform its actions. -/
theorem group_eq (slice : Slice) (channel : Channel) (groups : List Group) (g : Group) :
    group p slice channel.val channel groups g =
      (g.actions p slice channel groups).forM (Action.write p) := by
  have htones := tones_eq_nil p (Group.nextOnset? groups g.tick) g
  unfold group Group.actions
  by_cases hchange : g.first.change = true <;> by_cases hnotes : g.notes.entries = []
  all_goals simp [hchange, hnotes, htones, Action.write, Group.chord]

/-- To write the music of a channel is to perform its actions. -/
theorem channelBlock_eq (slice : Slice) (channel : Channel) :
    channelBlock p slice channel.val =
      ((Call.channelBlock slice channel).actions p).forM (Action.write p) := by
  have hlane : lift (Channel.lane channel.val) = (pure channel : Writing Channel) := by
    rw [Channel.lane_val]
    rfl
  unfold channelBlock Call.actions
  rw [hlane, pure_bind]
  by_cases hempty : slice.timelines.get channel = []
  · simp [hempty]
  · simp only [hempty, if_false]
    have hcons (a : Action) (l : List Action) : (a :: l).forM (Action.write p) =
        a.write p >>= fun _ => l.forM (Action.write p) := rfl
    have hgroups := funext (group_eq (p := p) slice channel (slice.groups p channel))
    rw [hcons, forM_flatMap, ← hgroups]
    rfl

/-- To make a call is to perform its actions. -/
theorem call_eq (call : Call) : call.write p = (call.actions p).forM (Action.write p) := by
  cases call with
  | beginSlice slice number => simp [Call.write, Call.actions, Action.write]
  | globals slice => simp [Call.write, Call.actions, Action.write]
  | channelBlock slice channel => exact channelBlock_eq slice channel

/-- To make calls is to perform all their actions. -/
theorem calls_eq (calls : List Call) :
    calls.forM (Call.write p) = (calls.flatMap (Call.actions p)).forM (Action.write p) := by
  rw [forM_flatMap]
  exact congrArg calls.forM (funext call_eq)

/-- To write slices is to make their calls. -/
theorem slices_eq_calls (slices : List Slice) :
    Writing.slices p slices = (Call.ofSlices slices).forM (Call.write p) := by
  have hslice (current : Slice) (number : Int) :
      slice p current number = (Call.ofSlice current number).forM (Call.write p) := by
    have hchannels : (List.range channelCount).forM
        (fun channel => channelBlock p current (channel : Int)) =
          ((List.finRange channelCount).map (Call.channelBlock current)).forM (Call.write p) := by
      simp only [List.forM_eq_forM, List.forM_map]
      rfl
    simp only [slice, Call.ofSlice, hchannels, List.forM_eq_forM, List.forM_cons, Call.write]
  rw [Call.ofSlices, forM_flatMap]
  exact congrArg slices.zipIdx.forM (funext fun s => hslice s.1 s.2)

end Writing

end Transcription
