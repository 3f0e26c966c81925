import Transcription.Failure

/-!
# Names in a file system

A file system knows names as bytes. A code point of a name takes the bytes of its UTF-8 form; the
surrogates from U+DC80 to U+DCFF stand for the single bytes that are no UTF-8, and other surrogates
have no bytes. A name without bytes, or with a zero byte, names nothing and is refused.
-/

namespace Transcription.CommandLine.Name

/-- Whether a code point stands for a single byte that is no UTF-8. -/
def isLooseByte (n : Nat) : Bool := 0xdc80 ≤ n ∧ n ≤ 0xdcff

/-- Whether a code point has no bytes. -/
def isByteless (n : Nat) : Bool := Text.isSurrogate n && !isLooseByte n

/-- The number of bytes of a code point. -/
def byteCount (n : Nat) : Nat :=
  if n < 0x80 ∨ isLooseByte n then 1
  else if n < 0x800 then 2
  else if n < 0x10000 then 3
  else 4

/-- The number of bytes of a name or a path. -/
def size (text : String) : Nat :=
  (Text.codePoints text).foldl (fun size n => size + byteCount n) 0

/-- Refuse a name that the file system cannot know. It begins after `start` code points; of a code
point without bytes the refusal tells the place, up to the end of the surrogates that follow it. -/
def check (start : Nat) (name : String) : Except Failure Unit :=
  let points := Text.codePoints name
  let first := points.findIdx isByteless
  match (points.drop first).takeWhile Text.isSurrogate with
  | [] => if 0 ∈ points then .error .nullInPath else .ok ()
  | [n] => .error (.byteless (start + first) n)
  | run => .error (.bytelessRun (start + first) (start + first + run.length - 1))

end Transcription.CommandLine.Name
