import Transcription.Number.Binary64

/-!
# JSON values

Integers and other numbers are kept apart, for an integer is asked for in most places. An object
lists its members in the order in which their names first occur, each name once.
-/

namespace Transcription

open Number (Binary64)

/-- A JSON value. -/
inductive Json where
  /-- The null value. -/
  | null
  /-- A truth value. -/
  | bool (b : Bool)
  /-- A number written without fraction and exponent. -/
  | int (n : Int)
  /-- A number written with a fraction or an exponent. -/
  | real (x : Binary64)
  /-- A text. -/
  | str (s : String)
  /-- An array. -/
  | arr (items : List Json)
  /-- An object. -/
  | obj (members : List (String × Json))

namespace Json

instance : Inhabited Json := ⟨null⟩

/-- Set a member: the value of a present name is replaced, a new name comes last. -/
def setMember (name : String) (value : Json) : List (String × Json) → List (String × Json)
  | [] => [(name, value)]
  | m :: rest =>
    if m.1 = name then (name, value) :: rest else m :: setMember name value rest

/-- The object of members in order of reading; of two members with one name the later counts. -/
def ofMembers (members : List (String × Json)) : Json :=
  obj (members.foldl (fun ms m => setMember m.1 m.2 ms) [])

/-- The member of a list of members with a name. -/
def member? (members : List (String × Json)) (name : String) : Option Json :=
  (members.find? (fun m => m.1 = name)).map Prod.snd

/-- A present member, unless it is null. -/
def given? (members : List (String × Json)) (name : String) : Option Json :=
  match member? members name with
  | some null => none
  | value => value

end Json

end Transcription
