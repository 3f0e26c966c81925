import Transcription.Transcript

/-!
# Log lines

What happens in a run is logged in the order in which it happens, each line with its level and its
source. Steps of the work are details, which are only shown on request.
-/

namespace Transcription.CommandLine

/-- How important a log line is. -/
inductive Level where
  /-- A step of the work. -/
  | debug
  /-- A result. -/
  | info
  /-- A condition that needs attention. -/
  | warning
  deriving DecidableEq

/-- The name of a level. -/
def Level.name : Level → String
  | debug => "DEBUG"
  | info => "INFO"
  | warning => "WARNING"

/-- A line of the log. -/
structure LogLine where
  /-- How important the line is. -/
  level : Level
  /-- What part of the work it comes from. -/
  source : String
  /-- What happened. -/
  message : String

namespace LogLine

/-- A log line as text. -/
def text (l : LogLine) : String := l.level.name ++ " alda_export." ++ l.source ++ ": " ++ l.message

/-- A MIDI file was read. -/
def midiRead (tracks : Nat) (resolution last : Int) : LogLine where
  level := .debug
  source := "midi_history"
  message := s!"read {tracks} tracks, resolution {resolution}, {last} ticks"

/-- A warning was given. -/
def ofWarning (w : Warning) : LogLine where
  level := .warning
  source := "diagnostics"
  message := w.text

/-- The global commands of a slice by name. -/
def commandsText (commands : Table String String) : String :=
  let entries := commands.entries.map (fun e => Text.quoted e.1 ++ ": " ++ Text.quoted e.2)
  "\x7b" ++ ", ".intercalate entries ++ "\x7d"

/-- A slice is complete. -/
def ofSlice (s : Slice) : LogLine where
  level := .debug
  source := "slices"
  message := s.text ++ " globals=" ++ commandsText s.globals

/-- A sequence was cut into slices. -/
def cut (count : Nat) : LogLine where
  level := .debug
  source := "decompiler"
  message := s!"sequence split into {count} slices"

/-- Something was noticed in writing. -/
def ofNotice : Notice → LogLine
  | .warning w => ofWarning w
  | .noMarker tick slice =>
    { level := .debug
      source := "emitter"
      message := s!"no part at tick {tick}, slice {slice} gets no marker" }

/-- The number of warnings, if there are any. -/
def warningCount (count : Nat) : List LogLine :=
  if count = 0 then []
  else [{ level := .info, source := "decompiler", message := s!"decompiled with {count} warnings" }]

/-- The log of a transcript, in the order of the work. -/
def ofTranscript (t : Transcript) : List LogLine :=
  t.cutWarnings.map ofWarning ++ t.slices.map ofSlice ++ [cut t.slices.length] ++
    t.notices.map ofNotice ++ warningCount t.warnings.length

/-- The lines that are shown, as text. -/
def shown (verbose : Bool) (lines : List LogLine) : List String :=
  (lines.filter (fun l => verbose ∨ l.level ≠ .debug)).map text

end LogLine

end Transcription.CommandLine
