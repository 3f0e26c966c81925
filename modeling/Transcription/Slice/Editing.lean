import Transcription.Slice.Excerpt

/-!
# Slices changed in place

Those who build a slice share it, and an operation that fails leaves behind what it had done until
then. Here every step says what it leaves: an event is added where nothing happened yet before it is
filled, and the timelines are sorted one after the other before the slice is frozen.
-/

namespace Transcription

/-- Add an empty event at a tick where nothing happens yet. -/
def Timeline.withEvent (tick : Int) (t : Timeline) : Timeline :=
  if t.any (fun e => e.1 = tick) then t else t ++ [(tick, ({} : Event))]

/-- Change the timeline of one channel. -/
def Slice.modifyTimeline (lane : Channel) (f : Timeline → Timeline) (s : Slice) : Slice :=
  { s with timelines := s.timelines.set lane (f (s.timelines.get lane)) lane.isLt }

/-- An operation on a slice that may fail, leaving the slice as far as it was changed. -/
abbrev Editing (α : Type) := EStateM Failure Slice α

namespace Editing

/-- Only a slice that is not frozen can be changed. -/
def checkOpen : Editing Unit := do
  let s ← get
  if s.frozen then throw (.frozen s.beginTick s.endTick)

/-- Set a global command. -/
def addCommand (name value : String) : Editing Unit := do
  checkOpen
  modify (fun s => { s with globals := s.globals.insert name value })

/-- Set the end of a slice. -/
def close (endTick : Int) : Editing Unit := do
  checkOpen
  let s ← get
  if endTick ≤ s.beginTick then throw (.endNotAfterBegin endTick s.beginTick)
  set { s with endTick }

/-- Make sure that there is an event on a channel at a tick, and say on which timeline. -/
def eventAt (tick channel : Int) : Editing Channel := do
  checkOpen
  let lane ← MonadExcept.ofExcept (Channel.lane channel)
  modify (Slice.modifyTimeline lane (Timeline.withEvent tick))
  return lane

/-- Mark that another program is chosen. -/
def addChange (tick channel : Int) : Editing Unit := do
  let lane ← eventAt tick channel
  modify (Slice.modifyTimeline lane (Timeline.alter tick (fun e => { e with change := true })))

/-- Set the notes that are struck. -/
def addNotes (tick channel : Int) (notes : Table Int Note) : Editing Unit := do
  let lane ← eventAt tick channel
  modify (Slice.modifyTimeline lane
    (Timeline.alter tick (fun e => { e with notes := some notes })))

/-- Keep the strikes inside the slice, and give them back. -/
def takeStrikes (strikes : Table Int Strikes) : Editing (Table Int Strikes) := do
  checkOpen
  let s ← get
  set { s with strikes := s.excerptStrikes strikes }
  return s.excerptStrikes strikes

/-- Keep the presses inside the slice, and give them back. -/
def takePresses (presses : Table Int (Table Int Presses)) :
    Editing (Table Int (Table Int Presses)) := do
  checkOpen
  let s ← get
  set { s with presses := s.excerptAllPresses presses }
  return s.excerptAllPresses presses

/-- Sort the timelines one after the other, then keep the slice from further changes. -/
def freeze : Editing Unit := do
  (List.finRange channelCount).forM
    (fun lane => modify (Slice.modifyTimeline lane Timeline.sorted))
  modify (fun s => { s with frozen := true })

/-! ### Operations as data -/

/-- A question about a slice. -/
inductive Query where
  /-- Where does it begin? -/
  | first
  /-- Where does it end? -/
  | last
  /-- How is it shown? -/
  | text
  /-- Is it frozen? -/
  | frozen
  /-- Does it contain a tick? -/
  | contains (tick : Int)
  /-- What are its global commands? -/
  | commands
  /-- What are its strikes? -/
  | strikes
  /-- What are its presses? -/
  | presses
  /-- What happens on a channel? -/
  | timeline (channel : Int)
  /-- Does anything happen on a channel? -/
  | hasEvents (channel : Int)
  /-- When is a note struck next on a channel? -/
  | nextStrike (channel tick : Int)
  /-- When is a pitch released or struck again? -/
  | offTick (channel note tick : Int)

/-- What an operation gives back. -/
inductive Answer where
  /-- Nothing. -/
  | done
  /-- A tick, if there is one. -/
  | tick (tick : Option Int)
  /-- A text. -/
  | text (text : String)
  /-- Yes or no. -/
  | truth (holds : Bool)
  /-- Global commands. -/
  | commands (commands : Table String String)
  /-- Strikes by channel. -/
  | strikes (strikes : Table Int Strikes)
  /-- Presses by channel. -/
  | presses (presses : Table Int (Table Int Presses))
  /-- A timeline. -/
  | timeline (timeline : Timeline)

/-- What a slice answers to a question. -/
def Query.answer (s : Slice) : Query → Except Failure Answer
  | .first => return .tick (some s.beginTick)
  | .last => return .tick (some s.endTick)
  | .text => return .text s.text
  | .frozen => return .truth s.frozen
  | .contains tick => return .truth (s.contains tick)
  | .commands => return .commands s.globals
  | .strikes => return .strikes s.strikes
  | .presses => return .presses s.presses
  | .timeline channel => return .timeline (← s.timeline channel)
  | .hasEvents channel => return .truth (← s.hasEvents channel)
  | .nextStrike channel tick => return .tick (s.nextStrike? channel tick)
  | .offTick channel note tick => return .tick (s.offTick? channel note tick)

/-- An operation on a slice. -/
inductive Operation where
  /-- Set a global command. -/
  | addCommand (name value : String)
  /-- Set the end. -/
  | close (endTick : Int)
  /-- Mark that another program is chosen. -/
  | addChange (tick channel : Int)
  /-- Set the notes that are struck. -/
  | addNotes (tick channel : Int) (notes : Table Int Note)
  /-- Keep the strikes inside the slice. -/
  | takeStrikes (strikes : Table Int Strikes)
  /-- Keep the presses inside the slice. -/
  | takePresses (presses : Table Int (Table Int Presses))
  /-- Keep the slice from further changes. -/
  | freeze
  /-- Ask a question. -/
  | ask (query : Query)

namespace Operation

/-- Do an operation. -/
def run : Operation → Editing Answer
  | addCommand name value => do
    Editing.addCommand name value
    return .done
  | close endTick => do
    Editing.close endTick
    return .done
  | addChange tick channel => do
    Editing.addChange tick channel
    return .done
  | addNotes tick channel notes => do
    Editing.addNotes tick channel notes
    return .done
  | takeStrikes strikes => return .strikes (← Editing.takeStrikes strikes)
  | takePresses presses => return .presses (← Editing.takePresses presses)
  | freeze => do
    Editing.freeze
    return .done
  | ask query => do
    let s ← get
    MonadExcept.ofExcept (query.answer s)

/-- The slice that an operation leaves behind, whether it fails or not. -/
def after (s : Slice) (op : Operation) : Slice :=
  match op.run s with
  | .ok _ s' => s'
  | .error _ s' => s'

end Operation

/-- The slice that operations leave behind, whether they fail or not. -/
def after (s : Slice) (ops : List Operation) : Slice := ops.foldl Operation.after s

end Editing

end Transcription
