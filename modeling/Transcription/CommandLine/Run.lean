import Transcription.CommandLine.Arguments
import Transcription.CommandLine.Log
import Transcription.CommandLine.Place
import Transcription.Midi.Reader
import Transcription.Recording.Document

/-!
# Running the program

A run reads its input, then its settings, transcribes the sequence and writes the text to the
standard output or to a file. It is described here by what it finds in files and what comes out of
it; reading and writing files is left to the program.
-/

namespace Transcription.CommandLine

/-- Where a run takes place. -/
structure Setting where
  /-- The name of the program in messages. -/
  program : String
  /-- The directory to which paths are relative. -/
  directory : String
  /-- What is found at absolute paths. -/
  find? : String → Option Entry
  /-- The home directories of users by their names; the empty name is the user of the program. -/
  home? : String → Option String

/-- How a run ends. -/
inductive Ending where
  /-- With an exit code. -/
  | exit (code : Nat)
  /-- With a refusal. -/
  | failure (e : Failure)

/-- What comes out of a run. -/
structure Outcome where
  /-- How the run ends. -/
  ending : Ending := .exit 0
  /-- What is written to the standard output. -/
  output : String := ""
  /-- The lines written to the standard error output. -/
  errors : List String := []
  /-- The file that is written, by its absolute path. -/
  file : Option (String × String) := none

/-- The outline of a command line. -/
def usage (program : String) : String :=
  "usage: " ++ program ++ " [-h] [-o OUTPUT] [--config CONFIG] [--stats] [--attributes] " ++
    "[--no-slice-comments] [-v] input"

/-- The help text. -/
def helpText (program : String) : String :=
  usage program ++ "\n\n" ++
    "Write a MIDI file, or a sequence in a .json document, in the notation of Alda.\n\n" ++
    "  -o, --output OUTPUT    write to this file\n" ++
    "  --config CONFIG        read settings from this JSON document\n" ++
    "  --stats                add statistics\n" ++
    "  --attributes           write changes of quantization and volume\n" ++
    "  --no-slice-comments    leave out the comments of slices\n" ++
    "  -v, --verbose          log every step\n"

/-- A command line is refused. -/
def refuse (setting : Setting) (e : UsageError) : Outcome where
  ending := .exit 2
  errors := [usage setting.program, setting.program ++ ": error: " ++ e.message]

/-- The absolute path that a path names. -/
def resolve (setting : Setting) (path : String) : Except Failure String :=
  Path.resolve setting.home? setting.directory path

/-- Whether there is something at a path, unless it is too long. -/
def isPresent (setting : Setting) (path : String) : Except Failure Bool :=
  match Place.look setting.find? path with
  | .ok _ => .ok true
  | .error .tooLong => .error (.nameTooLong path)
  | .error _ => .ok false

/-- The contents of a file. -/
def contents (setting : Setting) (path : String) : Except Failure ByteArray :=
  match Place.look setting.find? path with
  | .ok (.file bytes) => .ok bytes
  | .ok .directory => .error (.isDirectory path)
  | .error obstacle => .error (obstacle.failure path)

/-- The sequence of an input, with what is logged about it. -/
def readInput (setting : Setting) (path : String) : Except Failure (Recording × List LogLine) := do
  let bytes ← contents setting path
  if Path.isDocument path then return (← Recording.ofDocumentBytes bytes, [])
  let file ← Midi.File.ofBytes bytes
  let (recording, last) ← file.recordAll
  return (recording, [.midiRead file.tracks.length recording.resolution last])

/-- The settings of a document, or those without a choice. -/
def readConfig (setting : Setting) : Option PathValue → Except Failure Settings
  | none => .ok {}
  | some .dashes => .error .settingsNotPath
  | some (.path path) => do
    Settings.ofDocumentBytes (← contents setting (← resolve setting path))

/-- The settings of a command line: those of the document, changed by the options. -/
def readSettings (setting : Setting) (a : Arguments) : Except Failure Settings := do
  let s ← readConfig setting a.config
  return { s with
    statistics := s.statistics || a.stats
    attributes := s.attributes || a.attributes
    sliceComments := s.sliceComments && !a.noSliceComments }

/-- The counts that end every run. -/
def summary (t : Transcript) : String :=
  let slices := t.slices.length
  let warnings := t.warnings.length
  s!"slices={slices} warnings={warnings}"

/-- The absolute path of the output, at which a file can be written. -/
def outputPath (setting : Setting) : PathValue → Except Failure String
  | .dashes => .error .outputNotPath
  | .path path => do
    let path ← resolve setting path
    Place.checkWritable setting.find? path
    return path

/-- Hand out a transcript. -/
def deliver (setting : Setting) (a : Arguments) (t : Transcript) (log : List String) : Outcome :=
  match a.output with
  | none => { output := t.text, errors := log ++ [summary t] }
  | some value =>
    let size := (Text.codePoints t.text).length
    match outputPath setting value with
    | .error e => { ending := .failure e, errors := log }
    | .ok path =>
      { errors := log ++ [s!"Wrote {size} chars -> {path}", summary t]
        file := some (path, t.text) }

/-- Run with an input that exists at an absolute path. -/
def runOn (setting : Setting) (a : Arguments) (input : String) : Outcome :=
  let shown := LogLine.shown a.verbose
  match readInput setting input with
  | .error e => { ending := .failure e }
  | .ok (recording, log) =>
    match do recording.transcribe (← readSettings setting a) with
    | .error e => { ending := .failure e, errors := shown log }
    | .ok t => deliver setting a t (shown (log ++ LogLine.ofTranscript t))

/-- Run with arguments that are read already. -/
def runWith (setting : Setting) (a : Arguments) : Outcome :=
  let found := do
    let input ← resolve setting a.input
    return (input, ← isPresent setting input)
  match found with
  | .error e => { ending := .failure e }
  | .ok (input, false) => refuse setting (.inputNotFound input)
  | .ok (input, true) => runOn setting a input

/-- Run with the words of a command line. -/
def run (setting : Setting) (words : List String) : Outcome :=
  match Arguments.read words with
  | .error .help => { output := helpText setting.program }
  | .error (.refused e) => refuse setting e
  | .ok a => runWith setting a

end Transcription.CommandLine
