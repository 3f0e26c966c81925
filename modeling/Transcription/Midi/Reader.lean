import Transcription.Midi.Event

/-!
# Reading MIDI files

A file is a header and then one chunk for each track. A track is read up to the size that its header
says, and a file that ends before is refused.
-/

namespace Transcription.Midi

/-- Read events until `stop` bytes are left. Each event has at least one byte, so `fuel` need not be
larger than the number of bytes. -/
def readEvents (stop : Int) : Nat → Option Nat → Reader (List TrackEvent)
  | fuel, running, bytes =>
    if (bytes.length : Int) = stop then .ok ([], bytes)
    else match fuel with
      | 0 => .error .endOfFile
      | fuel + 1 => do
        let ((event, running), rest) ← readEvent running bytes
        let (events, rest) ← readEvents stop fuel running rest
        return (event :: events, rest)

/-- Read the name and the size of a chunk. -/
def readChunkHeader : Reader (Bytes × Nat) := fun bytes => do
  let (header, rest) ← readBytes 8 bytes
  return ((header.take 4, bigEndian (header.drop 4)), rest)

/-- The bytes of a name in ASCII. -/
def nameBytes (name : String) : Bytes := name.toList.map Char.toNat

/-- Read a track. -/
def readTrack : Reader (List TrackEvent) := fun bytes => do
  let ((name, size), rest) ← readChunkHeader bytes
  if name ≠ nameBytes "MTrk" then .error .noTrackHeader
  readEvents ((rest.length : Int) - size) rest.length none rest

/-- Read a number of tracks. -/
def readTracks : Nat → Reader (List (List TrackEvent))
  | 0, bytes => .ok ([], bytes)
  | n + 1, bytes => do
    let (track, rest) ← readTrack bytes
    let (tracks, rest) ← readTracks n rest
    return (track :: tracks, rest)

/-- Read a file. What follows the last track is not read. -/
def readFile (bytes : Bytes) : Except Failure File := do
  let ((name, size), rest) ← readChunkHeader bytes
  if name ≠ nameBytes "MThd" then .error .noFileHeader
  let header := rest.take size
  if header.length < 6 then .error .endOfFile
  let field (n : Nat) : Int := signed 16 (bigEndian ((header.drop n).take 2))
  let (tracks, _) ← readTracks (field 2).toNat (rest.drop size)
  return ⟨field 0, field 4, tracks⟩

/-- The contents of a file. -/
def File.ofBytes (bytes : ByteArray) : Except Failure File :=
  readFile (bytes.toList.map UInt8.toNat)

end Transcription.Midi
