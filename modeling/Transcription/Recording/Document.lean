import Transcription.Json.Reader
import Transcription.Recording.Basic
import Transcription.Recording.Tempo
import Transcription.Text.Integer

/-!
# Sequence documents

A recorded sequence can be written as a JSON document with its resolution, an optional end, the
notes and programs of each channel, and the global commands. Every number has its range, and the
first fault in the order of the document is the one that is reported.
-/

namespace Transcription.Recording

/-- The last tick that a document may name. -/
def maxTick : Int := 0x7fff_ffff_ffff_ffff

/-- The members of a value that has to be an object. -/
def membersOf (place : String) : Json → Except Failure (List (String × Json))
  | .obj members => .ok members
  | _ => .error (.notObject place)

/-- The items of a value that has to be an array; without the value there are none. -/
def itemsOf (place : String) : Option Json → Except Failure (List Json)
  | none => .ok []
  | some (.arr items) => .ok items
  | some _ => .error (.notArray place)

/-- The integer of a value that has to be one in a range. -/
def intIn (place : String) (low high : Int) : Option Json → Except Failure Int
  | some (.int n) => if low ≤ n ∧ n ≤ high then .ok n else .error (.outOfRange place low high)
  | _ => .error (.notInteger place)

/-- The place of an item in an array. -/
def itemPlace (place : String) (index : Nat) : String := s!"{place}[{index}]"

/-- Take the items of an array one after the other, each with its place. -/
def readItems {α : Type} (read : String → α → Json → Except Failure α) (place : String)
    (start : α) (items : List Json) : Except Failure α :=
  items.zipIdx.foldlM (fun acc item => read (itemPlace place item.2) acc item.1) start

/-- A note of a channel. Without a velocity it has a velocity of 100. -/
def readNote (channel : Int) (place : String) (r : Recording) (value : Json) :
    Except Failure Recording := do
  let members ← membersOf place value
  let tick ← intIn (place ++ ".tick") 0 maxTick (Json.member? members "tick")
  let note ← intIn (place ++ ".note") 0 127 (Json.member? members "note")
  let velocity ← intIn (place ++ ".velocity") 1 127
    ((Json.member? members "velocity").or (some (.int 100)))
  let length ← intIn (place ++ ".length") 1 maxTick (Json.member? members "length")
  return r.addNote channel tick note velocity length

/-- A program of a channel. -/
def readProgram (channel : Int) (place : String) (r : Recording) (value : Json) :
    Except Failure Recording := do
  let members ← membersOf place value
  let tick ← intIn (place ++ ".tick") 0 maxTick (Json.member? members "tick")
  let program ← intIn (place ++ ".program") 0 127 (Json.member? members "program")
  return r.addProgram channel tick program

/-- The channel that is named by a member. -/
def readChannelNumber (place key : String) : Except Failure Int :=
  match Text.readInt key with
  | .error _ => .error (.notAChannel key)
  | .ok n => intIn place 0 15 (some (.int n))

/-- A channel with its notes and programs. -/
def readChannel (r : Recording) (member : String × Json) : Except Failure Recording := do
  let key := member.1
  let place := s!"channels[{key}]"
  let channel ← readChannelNumber place key
  let members ← membersOf place member.2
  let notes ← itemsOf (place ++ ".notes") (Json.member? members "notes")
  let r ← readItems (readNote channel) (place ++ ".notes") r notes
  let programs ← itemsOf (place ++ ".programs") (Json.member? members "programs")
  readItems (readProgram channel) (place ++ ".programs") r programs

/-- The text of a tempo, which has to be positive. -/
def readTempo (place : String) : Json → Except Failure String
  | .int n => if n ≤ 0 then .error (.tempoNotPositive place) else Tempo.intText n
  | .real x => if x.isNonpositive then .error (.tempoNotPositive place) else Tempo.text x
  | _ => .error (.tempoNotPositive place)

/-- The text of a key, which is only read when the key is written. -/
def readKey (place : String) : Json → Except Failure String
  | .str s => if s = "" then .error (.keyNotText place) else .ok s
  | _ => .error (.keyNotText place)

/-- The global commands at a tick. -/
def readCommands (place : String) (r : Recording) (value : Json) : Except Failure Recording := do
  let members ← membersOf place value
  let tick ← intIn (place ++ ".tick") 0 maxTick (Json.member? members "tick")
  let r ← match Json.member? members tempoCommand with
    | none => pure r
    | some tempo => do
      let text ← readTempo (place ++ ".tempo") tempo
      pure (r.setCommand tick tempoCommand text)
  match Json.member? members keyCommand with
  | none => pure r
  | some key => do
    let text ← readKey (place ++ ".key") key
    pure (r.setCommand tick keyCommand text)

/-- Where a document says that the sequence ends. -/
def readEnd (members : List (String × Json)) : Except Failure (Option Int) :=
  match Json.given? members "end_tick" with
  | none => .ok none
  | some value => (intIn "end_tick" 1 maxTick (some value)).map some

/-- The sequence of a document. -/
def ofDocument (document : Json) : Except Failure Recording := do
  let members ← membersOf "history" document
  let resolution ← intIn "resolution" 1 65535 (Json.member? members "resolution")
  let endTick ← readEnd members
  let r ← Recording.new resolution endTick
  let channels ← membersOf "channels" ((Json.member? members "channels").getD (.obj []))
  let r ← channels.foldlM readChannel r
  let globals ← itemsOf "globals" (Json.member? members "globals")
  readItems readCommands "globals" r globals

/-- The sequence of a document in a file. -/
def ofDocumentBytes (bytes : ByteArray) : Except Failure Recording := do
  ofDocument (← Json.ofBytes bytes)

end Transcription.Recording
