import Transcription.Failure

/-!
# Warnings

A condition that does not stop the writing is reported as a warning, which may name a channel and a
tick.
-/

namespace Transcription

/-- The kinds of warnings. -/
inductive WarningKind where
  /-- A note or a rest is too short for any length. -/
  | unrepresentableDuration
  /-- A key command names no key signature. -/
  | invalidKeySignature
  /-- An event lies in no slice. -/
  | sliceLookup
  deriving DecidableEq

namespace WarningKind

/-- The name of a kind. -/
def name : WarningKind → String
  | unrepresentableDuration => "unrepresentable-duration"
  | invalidKeySignature => "invalid-key-signature"
  | sliceLookup => "slice-lookup"

/-- The kind with a name. -/
def ofName (s : String) : Except Failure WarningKind :=
  if s = unrepresentableDuration.name then .ok unrepresentableDuration
  else if s = invalidKeySignature.name then .ok invalidKeySignature
  else if s = sliceLookup.name then .ok sliceLookup
  else .error (.unknownWarning s)

/-- A kind is found by its name. -/
@[simp] theorem ofName_name (k : WarningKind) : ofName k.name = .ok k := by
  cases k <;> simp [ofName, name]

end WarningKind

/-- A condition that was met while writing. -/
structure Warning where
  /-- What kind of condition it is. -/
  kind : WarningKind
  /-- What happened. -/
  message : String
  /-- The channel it happened on. -/
  channel : Option Int := none
  /-- The tick it happened at. -/
  tick : Option Int := none
  deriving DecidableEq

namespace Warning

/-- Where a warning applies, in parentheses, or nothing. -/
def location (w : Warning) : String :=
  match w.channel, w.tick with
  | none, none => ""
  | some channel, none => s!" (channel {channel})"
  | none, some tick => s!" (tick {tick})"
  | some channel, some tick => s!" (channel {channel}, tick {tick})"

/-- A warning as one line of text. -/
def text (w : Warning) : String := w.kind.name ++ ": " ++ w.message ++ w.location

end Warning

end Transcription
