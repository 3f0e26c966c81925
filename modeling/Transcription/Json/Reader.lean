import Transcription.Failure
import Transcription.Json.Token

/-!
# Reading JSON documents

A document is one value with nothing after it. The readers below take tokens from the front and
return what is left; every nested reader has used at least one token, so the number of tokens bounds
the nesting. How deep arrays and objects may be nested is limited besides. Of several faults in a
document the first one counts.
-/

namespace Transcription.Json

/-- How deep the arrays and objects of a file may be nested. -/
def maxDepth : Nat := 990

/-- The fault of tokens that go on in no allowed way. -/
def faultOf : List Token → Failure
  | .fault e :: _ => e
  | _ => .notJson

mutual

/-- Read a value, in which arrays and objects may be nested `room` deep. -/
def readValue : Nat → Nat → List Token → Except Failure (Json × List Token)
  | 0, _, _ => .error .notJson
  | _ + 1, _, .literal value :: rest => .ok (value, rest)
  | _ + 1, 0, .openArray :: _ => .error (.tooDeep "array")
  | _ + 1, 0, .openObject :: _ => .error (.tooDeep "object")
  | _ + 1, _ + 1, .openArray :: .closeArray :: rest => .ok (arr [], rest)
  | fuel + 1, room + 1, .openArray :: rest =>
    (readItems fuel room rest).map (fun r => (arr r.1, r.2))
  | _ + 1, _ + 1, .openObject :: .closeObject :: rest => .ok (obj [], rest)
  | fuel + 1, room + 1, .openObject :: rest =>
    (readMembers fuel room rest).map (fun r => (ofMembers r.1, r.2))
  | _ + 1, _, tokens => .error (faultOf tokens)

/-- Read the items of an array, of which there is at least one, and the closing bracket. -/
def readItems : Nat → Nat → List Token → Except Failure (List Json × List Token)
  | 0, _, _ => .error .notJson
  | fuel + 1, room, tokens =>
    match readValue fuel room tokens with
    | .error e => .error e
    | .ok (item, .comma :: rest) =>
      (readItems fuel room rest).map (fun r => (item :: r.1, r.2))
    | .ok (item, .closeArray :: rest) => .ok ([item], rest)
    | .ok _ => .error .notJson

/-- Read the members of an object, of which there is at least one, and the closing brace. -/
def readMembers : Nat → Nat → List Token → Except Failure (List (String × Json) × List Token)
  | 0, _, _ => .error .notJson
  | fuel + 1, room, .literal (.str name) :: .colon :: tokens =>
    match readValue fuel room tokens with
    | .error e => .error e
    | .ok (value, .comma :: rest) =>
      (readMembers fuel room rest).map (fun r => ((name, value) :: r.1, r.2))
    | .ok (value, .closeObject :: rest) => .ok ([(name, value)], rest)
    | .ok _ => .error .notJson
  | _ + 1, _, _ => .error .notJson

end

/-- Read a text as a document, in which arrays and objects may be nested `room` deep. -/
def read (room : Nat) (text : String) : Except Failure Json :=
  let tokens := tokens text.toList
  match readValue (tokens.length + 1) room tokens with
  | .ok (value, []) => .ok value
  | .ok _ => .error .notJson
  | .error e => .error e

/-- Read the bytes of a file as a document in UTF-8. A mark of the byte order is not allowed. -/
def ofBytes (bytes : ByteArray) : Except Failure Json :=
  match String.fromUTF8? bytes with
  | none => .error .notUtf8
  | some text => read maxDepth text

end Transcription.Json
