import Transcription.Slice.Cutting

/-!
# Building slices step by step

Every slice begins at a tick that is not negative, is closed after it, takes its commands and its
excerpts while it is open, and is frozen at the end. Each of these steps is checked. What is struck
and what is chosen is then put where it belongs, one entry of the recording after the other, and
each look-up of a slice may leave a warning.
-/

namespace Transcription

/-- What is put into a timeline at once: the notes that are struck at a tick, or without notes the
mark that another program is chosen. -/
structure Recording.Entry where
  /-- The channel of the timeline. -/
  channel : Int
  /-- The tick of the event. -/
  tick : Int
  /-- The notes that are struck, if any are. -/
  notes : Option (Table Int Int)

/-- Put an entry into a slice. -/
def Recording.Entry.put (e : Recording.Entry) (s : Slice) : Except Failure Slice :=
  match e.notes with
  | some notes =>
    s.addNotes e.tick e.channel (Recording.sliceNotes s e.channel e.tick notes)
  | none => s.addChange e.tick e.channel

/-- Slices while they are filled, with the warnings so far. -/
structure Cut where
  /-- The slices in their order. -/
  slices : List Slice
  /-- What went wrong while slices were looked up. -/
  warnings : List Warning := []

/-- Put an entry into the slice that its tick belongs to. -/
def Cut.put (c : Cut) (e : Recording.Entry) : Except Failure Cut := do
  let found ← Slice.lookup c.slices e.tick
  match c.slices[found.1]? with
  | none => .error .outOfBounds
  | some s =>
    let s ← e.put s
    return { slices := c.slices.set found.1 s, warnings := c.warnings ++ found.2 }

namespace Recording

/-- The entries of a recording in the order in which they are put: by channel, what is struck before
what is chosen. -/
def entries (r : Recording) : List Entry :=
  r.channels.flatMap (fun c =>
    (r.strikesOn c).entries.map (fun e => ⟨c, e.1, some e.2⟩) ++
      (r.playedChanges c).map (fun tick => ⟨c, tick, none⟩))

/-- Open a slice at every boundary, and close each of them where the next one begins. -/
def openSlices (r : Recording) : Except Failure (List Slice) := do
  let slices ← r.boundaries.mapM Slice.new
  let ends := (slices.drop 1).map Slice.beginTick ++ [r.sliceEnd]
  (slices.zip ends).mapM (fun s => s.1.close s.2)

/-- Give a slice its commands and its excerpts. -/
def furnish (r : Recording) (s : Slice) : Except Failure Slice := do
  let commands := (r.commandsAt s.beginTick).entries
  let s ← commands.foldlM (fun s e => s.addCommand e.1 e.2) s
  let s ← s.takeStrikes r.strikes
  s.takePresses r.presses

/-- Cut a recording with every step checked. -/
def cut (r : Recording) : Except Failure Cut := do
  let slices ← (← r.openSlices).mapM r.furnish
  let c ← r.entries.foldlM Cut.put { slices }
  return { c with slices := c.slices.map Slice.freeze }

end Recording

end Transcription
