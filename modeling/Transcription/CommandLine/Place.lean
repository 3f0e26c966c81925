import Transcription.CommandLine.Path
import Transcription.Failure

/-!
# Places in a file system

A path leads from the root through directories to a file or a directory. It leads nowhere if
something on the way is missing or no directory, or if a name or the whole path is too long. A file
can be written wherever the directories above it can be made.
-/

namespace Transcription.CommandLine

/-- What is found at a path. -/
inductive Entry where
  /-- A file with its contents. -/
  | file (bytes : ByteArray)
  /-- A directory. -/
  | directory

/-- Why a path leads nowhere. -/
inductive Obstacle where
  /-- Something on the way does not exist. -/
  | missing
  /-- Something before the end of the way is no directory. -/
  | notDirectory
  /-- A name on the way, or the whole path, is too long. -/
  | tooLong
  deriving DecidableEq

/-- The refusal of a path that leads nowhere. -/
def Obstacle.failure (path : String) : Obstacle → Failure
  | missing => .noSuchFile path
  | notDirectory => .notDirectory path
  | tooLong => .nameTooLong path

namespace Place

/-- The most bytes that a name may have. -/
def maxNameSize : Nat := 255

/-- The most bytes that a path may have. -/
def maxPathSize : Nat := 4095

/-- Whether a name is longer than names may be. -/
def isTooLong (name : String) : Bool := maxNameSize < Name.size name

/-- Go from a place, which is given by its names, along further names. -/
def walk (find? : String → Option Entry) (place : List String) :
    List String → Except Obstacle Entry
  | [] =>
    match find? (Path.ofNames place) with
    | some entry => .ok entry
    | none => .error .missing
  | name :: rest =>
    match find? (Path.ofNames place) with
    | none => .error .missing
    | some (.file _) => .error .notDirectory
    | some .directory =>
      if isTooLong name then .error .tooLong else walk find? (place ++ [name]) rest

/-- What is found at an absolute path. -/
def look (find? : String → Option Entry) (path : String) : Except Obstacle Entry :=
  if maxPathSize < Name.size path then .error .tooLong else walk find? [] (Path.names path)

/-- Make a directory, whose names are listed from the last one up to the root, together with all
directories above it. -/
def makeDirectory (find? : String → Option Entry) : List String → Except Failure Unit
  | [] => .ok ()
  | name :: above =>
    let path := Path.ofNames (name :: above).reverse
    match look find? path with
    | .ok .directory => .ok ()
    | .ok (.file _) => .error (.alreadyExists path)
    | .error .missing => do
      makeDirectory find? above
      if isTooLong name then .error (.nameTooLong path)
    | .error obstacle => .error (obstacle.failure path)

/-- Whether a file can be written at an absolute path, for which the directories above it are
made. -/
def checkWritable (find? : String → Option Entry) (path : String) : Except Failure Unit := do
  let names := (Path.names path).reverse
  makeDirectory find? names.tail
  match look find? path with
  | .ok .directory => .error (.isDirectory path)
  | .ok (.file _) => .ok ()
  | .error .missing => if names.head?.any isTooLong then .error (.nameTooLong path)
  | .error obstacle => .error (obstacle.failure path)

end Place

end Transcription.CommandLine
