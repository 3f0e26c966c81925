import Transcription.Failure

/-!
# Bytes of MIDI files

Numbers of fixed size have their high bytes first. Numbers of variable length have seven bits in
each byte and the high bit set in all bytes but the last.
-/

namespace Transcription.Midi

/-- Bytes that are not read yet. -/
abbrev Bytes := List Nat

/-- A reader takes bytes from the front. -/
abbrev Reader (α : Type) := Bytes → Except Failure (α × Bytes)

/-- The longest message data that is read. -/
def maxDataLength : Nat := 1000000

/-- The number of bytes with their high bytes first. -/
def bigEndian (bytes : Bytes) : Nat := bytes.foldl (fun n b => 256 * n + b) 0

/-- The number of a two's complement with a number of bits. -/
def signed (bits n : Nat) : Int :=
  if n < 1 <<< (bits - 1) then n else (n : Int) - (1 <<< bits : Nat)

/-- Read one byte. -/
def readByte : Reader Nat
  | [] => .error .endOfFile
  | b :: rest => .ok (b, rest)

/-- Read a number of bytes. -/
def readBytes (n : Nat) : Reader Bytes := fun bytes =>
  if bytes.length < n then .error .endOfFile else .ok (bytes.take n, bytes.drop n)

/-- Read the further bytes of a number of variable length. -/
def readVariableFrom (n : Nat) : Reader Nat
  | [] => .error .endOfFile
  | b :: rest =>
    if b < 128 then .ok (128 * n + b, rest) else readVariableFrom (128 * n + (b - 128)) rest

/-- Read a number of variable length. -/
def readVariable : Reader Nat := readVariableFrom 0

/-- Read the data of a message that says how long they are. -/
def readData : Reader Bytes := fun bytes => do
  let (length, rest) ← readVariable bytes
  if maxDataLength < length then .error (.messageTooLong length)
  readBytes length rest

end Transcription.Midi
