import Transcription.Part.Basic

/-!
# The roster of declared parts

The parts of a score are kept in the order of their declaration, each of them once. Declaring a part
again gives back the one that is there.
-/

namespace Transcription

/-- The declared parts with their states, in order of declaration. -/
structure Roster where
  /-- Each part with its state. -/
  entries : List (PartId × PartState)
  /-- No part is declared twice. -/
  nodup : (entries.map Prod.fst).Nodup

namespace Roster

/-- The roster without parts. -/
def empty : Roster := ⟨[], .nil⟩

/-- The declared parts, in order of declaration. -/
def ids (r : Roster) : List PartId := r.entries.map Prod.fst

/-- The state of a part. -/
def state? (r : Roster) (id : PartId) : Option PartState :=
  (r.entries.find? (fun e => e.1 = id)).map Prod.snd

/-- The state of a part, which is that of a new part before the declaration. -/
def state (r : Roster) (id : PartId) : PartState := (r.state? id).getD {}

/-- The declared part with a label. -/
def find? (r : Roster) (label : String) : Option PartId := r.ids.find? (fun id => id.label = label)

/-- Change the state of a part. -/
def modify (r : Roster) (id : PartId) (f : PartState → PartState) : Roster where
  entries := r.entries.map (fun e => if e.1 = id then (e.1, f e.2) else e)
  nodup := by
    have h : (Prod.fst ∘ fun e : PartId × PartState => if e.1 = id then (e.1, f e.2) else e) =
        Prod.fst := by
      funext e
      by_cases he : e.1 = id <;> simp [he]
    rw [List.map_map, h]
    exact r.nodup

/-- Declare a part at the end of the roster, unless it is there. -/
def add (r : Roster) (id : PartId) : Roster :=
  if h : id ∈ r.entries.map Prod.fst then r
  else
    { entries := r.entries ++ [(id, {})]
      nodup := by
        rw [List.map_append, List.nodup_append]
        refine ⟨r.nodup, by simp, fun a ha b hb => ?_⟩
        rintro rfl
        simp only [List.map_cons, List.map_nil, List.mem_singleton] at hb
        exact h (hb ▸ ha) }

/-- Declare the part of a channel and a program, and say whether it is new. The program is checked
first, and the channel only for a part that is not there yet. -/
def declare (r : Roster) (channel program : Int) : Except Failure (PartId × Bool × Roster) := do
  let program ← Program.ofInt program
  let channel ← Channel.ofInt channel
  let id : PartId := ⟨channel, program⟩
  return (id, decide (id ∉ r.ids), r.add id)

/-- The part whose cursor is furthest along, the first declared one on a tie. -/
def furthest? (r : Roster) : Option (PartId × PartState) :=
  r.entries.foldl
    (fun best e => match best with
      | none => some e
      | some b => if b.2.cursor < e.2.cursor then some e else some b)
    none

/-- The furthest cursor, zero without parts. -/
def furthestCursor (r : Roster) : Int := ((r.entries.map (fun e => e.2.cursor)).max?).getD 0

/-- Changing a state keeps the parts and their order. -/
@[simp] theorem ids_modify (r : Roster) (id : PartId) (f : PartState → PartState) :
    (r.modify id f).ids = r.ids := by
  simp only [ids, modify, List.map_map]
  apply List.map_congr_left
  intro e _
  by_cases he : e.1 = id <;> simp [he]

/-- A declaration adds a part at most once, at the end. -/
theorem ids_add (r : Roster) (id : PartId) :
    (r.add id).ids = if id ∈ r.ids then r.ids else r.ids ++ [id] := by
  by_cases h : id ∈ r.entries.map Prod.fst <;> simp [add, ids, h]

end Roster

end Transcription
