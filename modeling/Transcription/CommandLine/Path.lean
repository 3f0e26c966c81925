import Transcription.CommandLine.Name

/-!
# Paths

A path that begins with a tilde begins at the home directory of a user. A path is made absolute by
the directory in which the program runs, and its dots are resolved. Each of its names is looked up
on the way, so a name that the file system cannot know is refused even if dots lead back from it.
The suffix of a file is what follows the last dot of its name, unless nothing stands on one of its
sides.
-/

namespace Transcription.CommandLine.Path

/-- The names in a path, without the dots that stand for the place itself. -/
def names (path : String) : List String :=
  (path.splitOn "/").filter (fun part => part ≠ "" ∧ part ≠ ".")

/-- Whether a path begins at the root. -/
def isAbsolute (path : String) : Bool := path.toList.head? = some '/'

/-- Replace a name with a tilde, which begins a path, by the home directory of the user. Without a
name it is the user that runs the program. -/
def expandHome (home? : String → Option String) (path : String) : Except Failure String :=
  match (names path).map String.toList with
  | ('~' :: user) :: rest =>
    if isAbsolute path then .ok path
    else do
      Name.check 0 (String.ofList user)
      match home? (String.ofList user) with
      | some home => return "/".intercalate (home :: rest.map String.ofList)
      | none => .error .noHome
  | _ => .ok path

/-- Go on from a place to a name; two dots lead back, but not beyond the root. -/
def follow (place : List String) (name : String) : List String :=
  if name = ".." then place.dropLast else place ++ [name]

/-- Go on from a place to a name, where the place is given by the names of a relative path: two dots
lead back, or are kept if no name is left. -/
def followBelow (way : List String) (name : String) : List String :=
  if name ≠ ".." then way ++ [name]
  else if way.getLast?.all (· = "..") then way ++ [name]
  else way.dropLast

/-- The number of code points before the next name of a path. -/
def lengthOf (way : List String) : Nat :=
  way.foldl (fun length name => length + (Text.codePoints name).length + 1) 0

/-- Refuse a path if one of its names cannot be known to the file system. The names that lead to the
place reached so far stand before the others. -/
def checkFrom (absolute : Bool) (way : List String) : List String → Except Failure Unit
  | [] => .ok ()
  | name :: rest => do
    if name ≠ ".." then Name.check (lengthOf way + if absolute then 1 else 0) name
    checkFrom absolute (if absolute then follow way name else followBelow way name) rest

/-- The path of a place, given by the names that lead to it from the root. -/
def ofNames (place : List String) : String := "/" ++ "/".intercalate place

/-- The absolute path that a path names in a directory, with its dots resolved. -/
def absolute (directory path : String) : String :=
  let start := if isAbsolute path then [] else names directory
  ofNames ((names path).foldl follow start)

/-- The absolute path that a path names in a directory, beginning perhaps at a home directory. -/
def resolve (home? : String → Option String) (directory path : String) :
    Except Failure String := do
  let path ← expandHome home? path
  checkFrom (isAbsolute path) [] (names path)
  return absolute directory path

/-- The name of the file at a path. -/
def fileName (path : String) : String := (names path).getLast?.getD ""

/-- The suffix of a file with its dot, or nothing. -/
def suffix (path : String) : String :=
  let name := (fileName path).toList
  let after := name.reverse.takeWhile (· ≠ '.') |>.reverse
  let dot := name.length - after.length
  if 1 < dot ∧ after ≠ [] then String.ofList ('.' :: after) else ""

/-- Whether a path is that of a JSON document, in capital letters or not. -/
def isDocument (path : String) : Bool := (suffix path).map Char.toLower = ".json"

end Transcription.CommandLine.Path
