import Transcription.Slice.Building
import Transcription.Transcript

/-!
# Writing with every step checked

Here every step of the writing refuses what it cannot do. A length has to be made of entries of its
table, the shortest note needs a table with entries, a press is a share of some length, a chord
needs notes, a warning is of a known kind, an integer that is written in a warning has no more
digits than a limit allows, and what is no key signature is the only thing that becomes a warning.
-/

namespace Transcription

/-! ### Lengths -/

namespace LengthTables

/-- The shortest note length, if there are note lengths. -/
def shortestNote? (t : LengthTables) : Except Failure Int :=
  match t.notes.minKey? with
  | some ticks => .ok ticks
  | none => .error .noLengths

/-- The share of `length` that `press` is, if there is a length. -/
def percentOf? (press length : Int) : Except Failure Int :=
  if 2 * length = 0 then .error .zeroDivisor else .ok (percentOf press length)

/-- The ticks given to a held note, where the shortest note is asked for when it is needed. -/
def lengthOf? (t : LengthTables) (press : Int) (gap : Option Int) : Except Failure Int :=
  match gap.filter (fun g => t.notes.contains g ∧ press ≤ g) with
  | some g => .ok g
  | none => do
    let shortest ← t.shortestNote?
    return if press < shortest then shortest else LengthTable.ticks (t.noteSummands press)

/-- The length given to a held note, with the pressed share of it. -/
def checkedFit (t : LengthTables) (press : Int) (gap : Option Int) : Except Failure NoteFit := do
  let length ← t.lengthOf? press gap
  if length ≤ 0 then return ⟨0, 0⟩
  return ⟨length, ← percentOf? press length⟩

end LengthTables

/-! ### Notices and counts -/

namespace Checked

open Writing

-- the most digits with which an integer may be written, where there is such a limit
variable (limit : Option Nat)

/-- An integer that is written keeps to the limit. -/
def checkDigits (n : Int) : Except Failure Unit :=
  if ∀ digits ∈ limit, Text.FitsIn digits n then .ok () else .error .tooLongToWrite

/-- A warning has to be of a known kind. -/
def checkKind (w : Warning) : Except Failure Warning := do
  return { w with kind := ← WarningKind.ofName w.kind.name }

/-- A look-up that misses is warned of with its tick. -/
def checkMiss (w : Warning) : Except Failure Warning := do
  checkDigits limit (w.tick.getD 0)
  checkKind w

/-- Warn of something. -/
def warn (w : Warning) : Writing Unit := do
  let w ← lift (checkKind w)
  act (fun s => s.warn w)

/-- Count an item with the tokens of its length, which have to be numbers. -/
def count (channel : Int) (item : Item) (tokens : List String) : Writing Unit := do
  let s ← get
  let (statistics, result) := s.statistics.count? channel item tokens
  act (fun s => { s with statistics })
  lift result

/-! ### Rests -/

/-- Find the rest of a part for a gap of some ticks. -/
def rest (p : Plan) (id : PartId) (ticks tick : Int) : Writing (Option String) := do
  if ticks ≤ 0 then return none
  let summands := (p.tables.restSummands ticks).map Prod.fst
  if summands = [] then
    warn (Score.restWarning id ticks tick)
    act (fun s => { s with statistics := s.statistics.add id.channel.val .restsSkipped 1 })
    return none
  let tokens ← lift (p.tables.rests.tokens? summands)
  count id.channel.val .rest tokens
  let length := Length.tie tokens
  act (fun s => s.modifyPart id (fun part => { part with length }))
  return some length

/-- Find the rest of a part for a gap. If there is none, then the ticks of the gap are written in a
warning. -/
def gap (p : Plan) (id : PartId) (ticks tick : Int) : Writing (Option String) := do
  if 0 < ticks ∧ p.tables.restSummands ticks = [] then lift (checkDigits limit ticks)
  rest p id ticks tick

/-- Rest up to a tick. -/
def restUpTo (p : Plan) (id : PartId) (tick : Int) : Writing (Option String) := do
  let cursor := ((← get).part id).cursor
  if tick ≤ cursor then return none
  let length ← gap limit p id (tick - cursor) cursor
  act (fun s => s.advance id tick)
  return length

/-- Rest inside a chord up to the place where it is left. -/
def restInChord (p : Plan) (id : PartId) (tick : Int) (cut : Option Int) (chordEnd : Int) :
    Writing (List Element × Int) := do
  match cut with
  | none => return ([], chordEnd)
  | some cut =>
    match ← gap limit p id (cut - tick) tick with
    | some length => return ([.rest length], cut)
    | none => return ([], chordEnd)

/-! ### The begin of a slice -/

/-- Bring the part that is furthest along up to the begin of a slice. -/
def restBeforeSlice (p : Plan) (current : Slice) : Writing Unit := do
  let s ← get
  match s.roster.furthest? with
  | none => return
  | some (id, part) =>
    if current.beginTick ≤ part.cursor then return
    act (fun s => s.select id)
    match ← gap limit p id (current.beginTick - part.cursor) part.cursor with
    | some length => act (fun s => s.addLine (.rest length))
    | none => pure ()
    act (fun s => s.advance id current.beginTick)

/-- Begin a slice under a number. -/
def beginSlice (p : Plan) (current : Slice) (number : Int) : Writing Unit := do
  act (fun s => { s with slice := number })
  if 0 < number then
    restBeforeSlice limit p current
    act (Score.mark current)
  act (fun s => s.addLine .blank)
  if p.settings.sliceComments then act (fun s => s.addLine (.comment number))

/-- The key signature of a descriptor, which has to be one that can be written. -/
def readKey (text : String) : Except Failure KeySignature := do
  let key ← KeySignature.read text
  let _ ← KeySignature.tokenOf key.fifths key.mode.number
  return key

/-- Put the key of a slice in force. Only an invalid key leaves the last one in force. -/
def changeKey (current : Slice) : Writing (List GlobalSetting) := do
  match current.globals.get? keyCommand with
  | none => return []
  | some text =>
    match readKey text with
    | .ok key =>
      act (fun s => { s with key })
      return [.key key]
    | .error (.invalidKey descriptor) =>
      warn ((← get).keyWarning (.invalidKey descriptor) current.beginTick)
      return []
    | .error e => throw e

/-- Write the global settings of a slice in one line. -/
def addGlobals (current : Slice) : Writing Unit := do
  let settings := (← changeKey current) ++ Score.tempoSetting current
  if settings ≠ [] then act (fun s => s.addLine (.globals settings))

/-! ### Chords -/

/-- Give a note its length, and count it. -/
def tone (p : Plan) (channel tick : Int) (next : Option Int) (e : Int × Note) :
    Writing Score.Tone := do
  let held := e.2.offTick - tick
  let fit ← lift (p.tables.checkedFit held (next.map (fun n => n - tick)))
  let summands := (p.tables.noteSummands fit.length).map Prod.fst
  let tokens ← lift (p.tables.notes.tokens? summands)
  let tone : Score.Tone :=
    { pitch := e.1
      velocity := e.2.velocity
      held
      written := { tokens, endTick := tick + summands.foldr (· + ·) 0, percent := fit.percent } }
  if summands = [] then warn (Score.noteWarning channel tick tone)
  count channel .note tokens
  return tone

/-- The tick at which the shortest note of a chord ends. -/
def chordEnd (tones : List Score.Tone) : Except Failure Int :=
  match (tones.map (fun t => t.written.endTick)).min? with
  | some tick => .ok tick
  | none => .error .noLengths

/-- A quantization is kept as a share of the whole, which has to be a finite number. -/
def checkQuant (percent : Int) : Except Failure Unit :=
  match Number.Binary64.nearest ((percent : Int) / 100) with
  | .finite _ => .ok ()
  | _ => .error .quotientTooLarge

/-- Change the attributes of a part to those of the lowest note of a chord, if attributes are
written. -/
def attributes (p : Plan) (id : PartId) (tones : List Score.Tone) : Writing (List Attribute) := do
  if !p.settings.attributes then return []
  match tones with
  | [] => throw .noLengths
  | tone :: _ =>
    lift (checkQuant (max 1 tone.written.percent))
    let quants ← of (Score.changeQuant id tone)
    let volumes ← check (Score.changeVelocity id tone)
    return quants ++ volumes

/-- Write a chord on a line of its own. -/
def chord (p : Plan) (current : Slice) (channel : Int) (lane : Channel) (tick : Int)
    (next : Option Int) (tones : List Score.Tone) : Writing Unit := do
  let id ← partFor p channel lane tick
  let jump ← of (Score.jump current id)
  let gap ← restUpTo limit p id tick
  let noteEnd ← lift (chordEnd tones)
  let attributes ← attributes p id tones
  let notes ← tones.mapM (note id)
  let (rests, chordEnd) ←
    restInChord limit p id tick (Score.cut next current.endTick noteEnd) noteEnd
  act fun s =>
    (s.addLine (.chord { jump, gap, attributes, elements := notes ++ rests })).advance id chordEnd

/-- Write a group of events. -/
def group (p : Plan) (current : Slice) (channel : Int) (lane : Channel) (groups : List Group)
    (g : Group) : Writing Unit := do
  if g.first.change then
    let _ ← changePart p channel lane g.tick
  if g.notes.entries = [] then return
  let next := Group.nextOnset? groups g.tick
  let tones ← g.notes.entries.mapM (tone p channel g.tick next)
  chord limit p current channel lane g.tick next tones

/-- Write the music of one channel in a slice, if there is any. -/
def channelBlock (p : Plan) (current : Slice) (channel : Int) : Writing Unit := do
  let lane ← lift (Channel.lane channel)
  let timeline := current.timelines.get lane
  if timeline = [] then return
  act (fun s => s.addLine .blank)
  let groups := Group.divide p.tables.shortestRest timeline
  groups.forM (group limit p current channel lane groups)

/-- Write a whole slice. -/
def slice (p : Plan) (current : Slice) (number : Int) : Writing Unit := do
  beginSlice limit p current number
  addGlobals current
  (List.range channelCount).forM (fun channel => channelBlock limit p current (channel : Int))

/-- The score of slices. -/
def score (p : Plan) (slices : List Slice) : Except Failure Score :=
  match (slices.zipIdx.forM (fun s => slice limit p s.1 (s.2 : Int))).run {} with
  | .ok () s => .ok s
  | .error e _ => .error e

/-- Cut a sequence into slices and write them. The format has to be known, and the lengths need a
positive resolution. -/
def transcribe (r : Recording) (settings : Settings) : Except Failure Transcript := do
  let c ← r.cut
  let cutWarnings ← c.warnings.mapM (checkMiss limit)
  Length.checkResolution r.resolution
  let format ← Format.ofName settings.format.name
  let plan := Plan.of r { settings with format }
  let score ← score limit plan c.slices
  return {
    text := plan.textOf score
    cutWarnings
    notices := score.notices.toList
    statistics := score.statistics
    slices := c.slices.map (Slice.written plan.tables) }

end Checked

end Transcription
