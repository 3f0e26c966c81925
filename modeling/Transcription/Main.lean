import Transcription.CommandLine.Run

/-!
# The program

Reads the files that the command line names, runs, and writes what comes out.
-/

namespace Transcription.CommandLine

/-- What is found at an absolute path. -/
def readEntry (path : String) : IO (Option Entry) := do
  let place := (← IO.currentDir) / Text.plain path
  if ← place.isDir then return some .directory
  else if ← place.pathExists then return some (.file (← IO.FS.readBinFile place))
  else return none

/-- The paths that a command line names. -/
def namedPaths (a : Arguments) : List String :=
  let values := a.config.toList ++ a.output.toList
  a.input :: values.filterMap (fun value =>
    match value with
    | .path path => some path
    | .dashes => none)

/-- The absolute paths of all places on the way to a place. -/
def waysTo (path : String) : List String :=
  let names := Path.names path
  (List.range (names.length + 1)).map (fun n => Path.ofNames (names.take n))

/-- What is found on the way to the paths that a command line names. -/
def readEntries (home? : String → Option String) (directory : String) (words : List String) :
    IO (List (String × Option Entry)) :=
  match Arguments.read words with
  | .error _ => return []
  | .ok a =>
    let paths := (namedPaths a).filterMap (fun path => (Path.resolve home? directory path).toOption)
    (paths.flatMap waysTo).mapM (fun path => return (path, ← readEntry path))

/-- Write what comes out of a run, and give back the exit code. -/
def perform (o : Outcome) : IO UInt32 := do
  match o.file with
  | some (path, text) =>
    IO.FS.createDirAll (Text.plain (Path.ofNames (Path.names path).dropLast))
    IO.FS.writeFile (Text.plain path) (Text.plain text)
  | none => pure ()
  IO.print (Text.plain o.output)
  o.errors.forM (fun line => IO.eprintln (Text.plain line))
  match o.ending with
  | .exit code => return code.toUInt32
  | .failure e =>
    IO.eprintln (Text.plain e.message)
    return 1

end Transcription.CommandLine

open Transcription Transcription.CommandLine in
/-- Run with the words of the command line. -/
def main (words : List String) : IO UInt32 := do
  let words := words.map Text.ofPlain
  let directory := Text.ofPlain (← IO.currentDir).toString
  let program := Text.ofPlain (((← IO.appPath).fileName).getD "transcribe")
  let home := (← IO.getEnv "HOME").map Text.ofPlain
  let home? (user : String) : Option String := if user = "" then home else none
  let entries ← readEntries home? directory words
  let find? (path : String) : Option Entry := (entries.lookup path).join
  perform (run { program, directory, find?, home? } words)
