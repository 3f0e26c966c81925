import Transcription.Midi.Bytes
import Transcription.Midi.Message
import Transcription.Number.Logarithm

/-!
# Events of MIDI files

An event is a number of ticks, a status byte and data. It may leave out its status byte if it is
that of the event before.
-/

namespace Transcription.Midi

/-! ### Meta messages -/

/-- A byte of the data of a meta message. -/
def dataByte (data : Bytes) (n : Nat) : Except Failure Nat :=
  match data[n]? with
  | some b => .ok b
  | none => .error .outOfBounds

/-- Meta messages need as many data bytes as their kind has. -/
def checkDataLength (data : Bytes) (n : Nat) : Except Failure Unit :=
  if data.length < n then .error .outOfBounds else .ok ()

/-- The value of a data byte has to lie in a range. -/
def checkDataRange (data : Bytes) (n high : Nat) : Except Failure Unit := do
  if high < (← dataByte data n) then .error (.attributeOutOfRange high)

/-- A time code has one of four frame rates, minutes and seconds below 60, and hundredths of frames.
-/
def checkTimeCode (data : Bytes) : Except Failure Unit := do
  let rate := (← dataByte data 0) / 32
  if 3 < rate then .error (.noSuchFrameRate rate)
  checkDataRange data 1 59
  checkDataRange data 2 59
  checkDataLength data 4
  checkDataRange data 4 99

/-- A time signature has four data bytes. The second one is the exponent of the denominator, which
has to come out as the denominator's binary logarithm. -/
def checkTimeSignature (data : Bytes) : Except Failure Unit := do
  let exponent ← dataByte data 1
  if Number.computedLog2 exponent ≠ exponent then .error .denominatorNotPower
  checkDataLength data 4

/-- The key signature of a number of sharps or flats and a mode. -/
def keyMessage (data : Bytes) : Except Failure Message := do
  let fifths := signed 8 (← dataByte data 0)
  let mode ← dataByte data 1
  match KeySignature.of? fifths mode with
  | some k => .ok (.key k.name)
  | none => .error (.badKeyBytes fifths mode)

/-- The kinds of meta messages that hold a text or other data of any length. -/
def freeMetaTypes : List Nat := [0x01, 0x02, 0x03, 0x04, 0x05, 0x06, 0x07, 0x09, 0x21, 0x2f, 0x7f]

/-- A meta message of a known type, or none. -/
def metaMessage (type : Nat) (data : Bytes) : Except Failure (Option Message) := do
  if type ∈ freeMetaTypes then return some .other
  match type with
  | 0x00 =>
    if data ≠ [] then checkDataLength data 2
    return some .other
  | 0x20 =>
    checkDataLength data 1
    return some .other
  | 0x51 =>
    checkDataLength data 3
    return some (.tempo (bigEndian (data.take 3)))
  | 0x54 =>
    checkTimeCode data
    return some .other
  | 0x58 =>
    checkTimeSignature data
    return some .other
  | 0x59 => return some (← keyMessage data)
  | _ => return none

/-- Read a meta message after its status byte. Types that are not known do not move the time on. -/
def readMeta (delta : Nat) : Reader TrackEvent := fun bytes => do
  let (type, rest) ← readByte bytes
  let (data, rest) ← readData rest
  match ← metaMessage type data with
  | some message => return (⟨delta, message⟩, rest)
  | none => return (⟨0, .other⟩, rest)

/-! ### Other messages -/

/-- The data of an exclusive message without the bytes that begin and end it. -/
def exclusiveData (data : Bytes) : Bytes :=
  let data := if data.head? = some 0xf0 then data.drop 1 else data
  if data.getLast? = some 0xf7 then data.dropLast else data

/-- Read an exclusive message after its status byte. -/
def readExclusive (delta : Nat) : Reader TrackEvent := fun bytes => do
  let (data, rest) ← readData bytes
  if (exclusiveData data).any (fun b => 127 < b) then .error .badExclusiveByte
  return (⟨delta, .other⟩, rest)

/-- The number of data bytes after a status byte. -/
def dataCount? (status : Nat) : Option Nat :=
  if status < 0xc0 then some 2
  else if status < 0xe0 then some 1
  else if status < 0xf0 then some 2
  else if status = 0xf1 ∨ status = 0xf3 then some 1
  else if status = 0xf2 then some 2
  else if status = 0xf6 ∨ status = 0xf8 ∨ status = 0xfa ∨ status = 0xfb ∨ status = 0xfc ∨
      status = 0xfe then some 0
  else none

/-- The kind of a system message without data. -/
def systemKind (status : Nat) : String :=
  match status with
  | 0xf6 => "tune_request"
  | 0xf8 => "clock"
  | 0xfa => "start"
  | 0xfb => "continue"
  | 0xfc => "stop"
  | _ => "active_sensing"

/-- The message of a status byte and its data. -/
def messageOf (status : Nat) (data : Bytes) : Message :=
  let channel : Int := (status % 16 : Nat)
  match status / 16, data with
  | 0x8, [note, _] => .noteOff channel note
  | 0x9, [note, velocity] => .noteOn channel note velocity
  | 0xc, [number] => .program channel number
  | _, _ => .other

/-- Read the data of a message of which some bytes are read already. -/
def readMessage (delta status : Nat) (early : Bytes) : Reader TrackEvent := fun bytes => do
  match dataCount? status with
  | none => .error (.undefinedStatus status)
  | some count =>
    let (more, rest) ← readBytes (count - early.length) bytes
    let data := early ++ more
    if data.any (fun b => 127 < b) then .error .badDataByte
    if count < data.length then .error (.wrongByteCount (systemKind status))
    return (⟨delta, messageOf status data⟩, rest)

/-- Read one event of a track. The running status is that of the last event that was no meta
message. -/
def readEvent (running : Option Nat) : Reader (TrackEvent × Option Nat) := fun bytes => do
  let (delta, rest) ← readVariable bytes
  let (first, rest) ← readByte rest
  let (status, early) ←
    if 128 ≤ first then .ok (first, [])
    else match running with
      | some status => .ok (status, [first])
      | none => .error .noRunningStatus
  let running := if status = 0xff then running else some status
  let (event, rest) ←
    if status = 0xff then readMeta delta rest
    else if status = 0xf0 ∨ status = 0xf7 then readExclusive delta rest
    else readMessage delta status early rest
  return ((event, running), rest)

end Transcription.Midi
