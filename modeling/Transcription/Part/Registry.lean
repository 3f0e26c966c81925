import Transcription.Part.Roster

/-!
# Parts found by their labels

A part is created once, and whoever writes it shares it and moves it on. It is found again by its
label, a text. So a registry holds the parts at the places where they were created, and under each
label the place of its part. Here every step says what it leaves, also when it fails.
-/

namespace Transcription

/-- The declared parts, and where they are found. -/
structure Registry where
  /-- The parts that were created, each with its state. A part keeps its place. -/
  parts : List (PartId × PartState) := []
  /-- The place of a part under its label, in the order in which the labels were entered. -/
  places : List (String × Nat) := []

namespace Registry

/-- The place under a label. -/
def place? (g : Registry) (label : String) : Option Nat :=
  (g.places.find? (fun e => e.1 = label)).map Prod.snd

/-- Create a part and enter its place under a label. -/
def enter (g : Registry) (label : String) (id : PartId) : Registry where
  parts := g.parts ++ [(id, {})]
  places := g.places ++ [(label, g.parts.length)]

/-- Move the part at a place on to a tick. -/
def advance (g : Registry) (place : Nat) (tick : Int) : Registry :=
  { g with parts := g.parts.modify place (fun e => (e.1, e.2.advanceTo tick)) }

/-- The parts in the order of their labels. -/
def entries (g : Registry) : List (PartId × PartState) :=
  g.places.filterMap (fun e => g.parts[e.2]?)

/-- The part whose cursor is furthest along, the first one on a tie. -/
def furthest? (g : Registry) : Option (PartId × PartState) :=
  g.entries.foldl
    (fun best e => match best with
      | none => some e
      | some b => if b.2.cursor < e.2.cursor then some e else some b)
    none

/-- The furthest cursor, zero without parts. -/
def furthestCursor (g : Registry) : Int := ((g.entries.map (fun e => e.2.cursor)).max?).getD 0

end Registry

/-- An operation on a registry that may fail, leaving the registry as far as it was changed. -/
abbrev Registering (α : Type) := EStateM Failure Registry α

namespace Registering

/-- Declare the part of a channel and a program: its place, and whether it is new. The program is
checked for the label, and the channel only when a part is created. -/
def declare (channel program : Int) : Registering (Nat × Bool) := do
  let named ← MonadExcept.ofExcept (Program.ofInt program)
  let label := named.labelOn channel
  let g ← get
  match g.place? label with
  | some place => return (place, false)
  | none =>
    let id ← MonadExcept.ofExcept (PartId.ofInts channel program)
    set (g.enter label id)
    return (g.parts.length, true)

/-- An operation on a registry or on one of its parts. -/
inductive Operation where
  /-- Declare the part of a channel and a program. -/
  | declare (channel program : Int)
  /-- Move the part at a place on to a tick. -/
  | advance (place : Nat) (tick : Int)

/-- The registry that an operation leaves behind, whether it fails or not. -/
def Operation.after (g : Registry) : Operation → Registry
  | declare channel program =>
    match (Registering.declare channel program).run g with
    | .ok _ g' => g'
    | .error _ g' => g'
  | advance place tick => g.advance place tick

/-- The registry that operations leave behind, whether they fail or not. -/
def after (g : Registry) (ops : List Operation) : Registry := ops.foldl Operation.after g

end Registering

end Transcription
