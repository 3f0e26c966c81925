import Transcription.Slice.Excerpt
import Transcription.Warning

/-!
# Cutting a sequence into slices

A sequence is cut at every tick after its start that has a global command. The slices follow one
another without gaps up to the end of the sequence, or past its last command if that comes later.
Notes and program changes go to the slice that contains them; what lies in no slice goes to the last
one, with a warning.
-/

namespace Transcription

namespace Recording

/-- The ticks at which slices begin. -/
def boundaries (r : Recording) : List Int := 0 :: r.globalTicks.filter (fun t => 0 < t)

/-- The tick at which the last slice ends. -/
def sliceEnd (r : Recording) : Int := max r.lastTick (r.boundaries.getLast?.getD 0 + 1)

/-- The begins and ends of all slices. -/
def bounds (r : Recording) : List (Int × Int) :=
  r.boundaries.zip (r.boundaries.drop 1 ++ [r.sliceEnd])

/-- The slice between two ticks with its excerpts, but without events. -/
def emptySlice (r : Recording) (bounds : Int × Int) : Slice :=
  let s : Slice := { beginTick := bounds.1, endTick := bounds.2 }
  { s with
    globals := r.commandsAt bounds.1
    strikes := s.excerptStrikes r.strikes
    presses := s.excerptAllPresses r.presses }

/-- All slices, without events. -/
def emptySlices (r : Recording) : List Slice := r.bounds.map r.emptySlice

/-- Whether a program that is chosen at a tick is played before the next one is chosen. -/
def isPlayed (r : Recording) (channel : Int) (span : Int × Option Int) : Bool :=
  (r.strikesOn channel).keys.any (fun tick => span.1 ≤ tick ∧ span.2.all (fun next => tick < next))

/-- The ticks at which a program is chosen that is played. -/
def playedChanges (r : Recording) (channel : Int) : List Int :=
  ((r.programSpans channel).filter (r.isPlayed channel)).map Prod.fst

/-- The notes struck together, each with its release as the slice knows it. -/
def sliceNotes (s : Slice) (channel tick : Int) (notes : Table Int Int) : Table Int Note :=
  notes.map (fun note velocity =>
    { velocity, offTick := (s.offTick? channel note tick).getD s.endTick })

/-- Add to a slice the events of a channel that belong to it. -/
def addChannel (r : Recording) (belongs : Int → Bool) (s : Slice) (channel : Int) :
    Except Failure Slice := do
  let strikes := (r.strikesOn channel).entries.filter (fun e => belongs e.1)
  let s ← strikes.foldlM (fun s e => s.addNotes e.1 channel (sliceNotes s channel e.1 e.2)) s
  ((r.playedChanges channel).filter belongs).foldlM (fun s tick => s.addChange tick channel) s

/-- Add to a slice all the events that belong to it, and freeze it. -/
def fillSlice (r : Recording) (belongs : Int → Bool) (s : Slice) : Except Failure Slice := do
  return (← r.channels.foldlM (r.addChannel belongs) s).freeze

/-- The slices of a sequence. -/
def slices (r : Recording) : Except Failure (List Slice) :=
  let slices := r.emptySlices
  slices.zipIdx.mapM (fun s => r.fillSlice (fun tick => Slice.ownerIndex slices tick = s.2) s.1)

/-- The ticks of a channel for which a slice is looked up: those of its notes, and those of its
program changes. -/
def lookupTicks (r : Recording) (channel : Int) : List Int :=
  (r.strikesOn channel).keys ++ r.playedChanges channel

end Recording

namespace Slice

/-- The warning that a tick lies in no slice. -/
def missWarning (tick : Int) : Warning where
  kind := .sliceLookup
  message := s!"no slice contains tick {tick}; using the last slice"
  tick := some tick

/-- The place of the slice that a tick belongs to, with a warning if it lies in none. -/
def lookup (slices : List Slice) (tick : Int) : Except Failure (Nat × List Warning) :=
  if slices.isEmpty then .error .noSlices
  else .ok (ownerIndex slices tick, if anyContains slices tick then [] else [missWarning tick])

end Slice

/-- The warnings of cutting a sequence: one for each tick of notes or of a program change on a
channel that lies in no slice. -/
def Recording.cutWarnings (r : Recording) : List Warning :=
  ((r.channels.flatMap r.lookupTicks).filter (fun t => !Slice.anyContains r.emptySlices t)).map
    Slice.missWarning

end Transcription
