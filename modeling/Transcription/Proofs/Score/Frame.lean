import Transcription.Proofs.Length.Notes
import Transcription.Score.Writing

/-!
# What a step of writing changes

Up to the line that it writes, a chord changes the state of its own part and nothing else that later
lines depend on; it also counts its rests. The relation `Score.Alters` says so of a single step and
is closed under composition, so the state of a part after a chord is found step by step.
-/

namespace Transcription

/-! ### States of a roster -/

namespace Roster

private theorem find?_map_modify (entries : List (PartId × PartState)) (id id' : PartId)
    (f : PartState → PartState) :
    (entries.map (fun e => if e.1 = id then (e.1, f e.2) else e)).find? (fun e => e.1 = id') =
      (entries.find? (fun e => e.1 = id')).map
        (fun e => if e.1 = id then (e.1, f e.2) else e) := by
  rw [List.find?_map]
  congr 2
  funext e
  by_cases he : e.1 = id <;> simp [he]

/-- A change of one part's state is seen in this part, if it is declared, and in no other one. -/
theorem state_modify (r : Roster) (id id' : PartId) (f : PartState → PartState) :
    (r.modify id f).state id' =
      if id' = id ∧ id ∈ r.ids then f (r.state id) else r.state id' := by
  have hmodify : (r.modify id f).state? id' =
      (r.entries.find? (fun e => e.1 = id')).map
        (fun e => if e.1 = id then f e.2 else e.2) := by
    rw [state?, modify, find?_map_modify, Option.map_map]
    congr 1
    funext e
    by_cases he : e.1 = id <;> simp [he]
  rw [state, hmodify]
  cases hfound : r.entries.find? (fun e => e.1 = id') with
  | none =>
    have hnot : ¬ (id' = id ∧ id ∈ r.ids) := by
      rintro ⟨rfl, hmem⟩
      obtain ⟨e, he, heq⟩ := List.mem_map.mp hmem
      simpa [heq] using List.find?_eq_none.mp hfound e he
    simp [hnot, state, state?, hfound]
  | some e =>
    have hkey : e.1 = id' := by simpa using List.find?_some hfound
    have hmem : id' ∈ r.ids :=
      List.mem_map.mpr ⟨e, List.mem_of_find?_eq_some hfound, hkey⟩
    by_cases hid : id' = id
    · subst hid
      simp [hkey, hmem, state, state?, hfound]
    · simp [hkey, hid, state, state?, hfound]

/-- A new part starts with the state that it had before its declaration. -/
theorem state_add (r : Roster) (id id' : PartId) : (r.add id).state id' = r.state id' := by
  unfold add
  split
  · rfl
  · rename_i hnew
    simp only [state, state?, List.find?_append]
    cases hfound : r.entries.find? (fun e => e.1 = id') with
    | some e => simp
    | none => by_cases hid : id = id' <;> simp [hid]

/-- Of two changes of one part's state the second one is made of the first one. -/
theorem modify_modify (r : Roster) (id : PartId) (f g : PartState → PartState) :
    (r.modify id f).modify id g = r.modify id (g ∘ f) := by
  simp only [modify, List.map_map, mk.injEq]
  apply List.map_congr_left
  intro e _
  by_cases he : e.1 = id <;> simp [he]

/-- The state of an entry is that of its part. -/
theorem state_of_mem {r : Roster} {e : PartId × PartState} (he : e ∈ r.entries) :
    r.state e.1 = e.2 := by
  have hsome : (r.entries.find? (fun e' => e'.1 = e.1)).isSome := by
    rw [List.find?_isSome]
    exact ⟨e, he, by simp⟩
  obtain ⟨e', hfound⟩ := Option.isSome_iff_exists.mp hsome
  have hkey : e'.1 = e.1 := by simpa using List.find?_some hfound
  have heq : e' = e :=
    List.inj_on_of_nodup_map r.nodup (List.mem_of_find?_eq_some hfound) he hkey
  simp [state, state?, hfound, heq]

/-- Without a declaration a part is in the state of a new one. -/
theorem state_of_notMem {r : Roster} {id : PartId} (h : id ∉ r.ids) : r.state id = {} := by
  have hnone : r.entries.find? (fun e => e.1 = id) = none := by
    rw [List.find?_eq_none]
    intro e he heq
    exact h (List.mem_map.mpr ⟨e, he, of_decide_eq_true heq⟩)
  rw [state, state?, hnone]
  rfl

/-- A change depends on the present state of its part only. -/
theorem modify_congr {r : Roster} {id : PartId} {f g : PartState → PartState}
    (h : f (r.state id) = g (r.state id)) : r.modify id f = r.modify id g := by
  simp only [modify, mk.injEq]
  apply List.map_congr_left
  intro e he
  by_cases hid : e.1 = id
  · rw [← state_of_mem he, hid]
    simp [h]
  · simp [hid]

/-- A change that leaves the state of its part as it is changes nothing. -/
theorem modify_self {r : Roster} {id : PartId} {f : PartState → PartState}
    (h : f (r.state id) = r.state id) : r.modify id f = r := by
  obtain ⟨entries, hnodup⟩ := r
  rw [modify_congr (g := fun part => part) h]
  simp [modify]

/-- Items of which those before one of them are less far, and those after it not further. -/
private theorem cursor_le_of_split {before rest : List (PartId × PartState)}
    {e : PartId × PartState} (hbefore : ∀ e' ∈ before, e'.2.cursor < e.2.cursor)
    (hrest : ∀ e' ∈ rest, e'.2.cursor ≤ e.2.cursor) :
    ∀ e' ∈ before ++ e :: rest, e'.2.cursor ≤ e.2.cursor := by
  intro e' he'
  rcases List.mem_append.mp he' with he' | he'
  · have := hbefore e' he'
    omega
  · rcases List.mem_cons.mp he' with rfl | he'
    · omega
    · exact hrest e' he'

/-- A search that takes the next item if it is further along finds the first of those that are
furthest along. -/
private theorem foldl_furthest
    {step : Option (PartId × PartState) → PartId × PartState → Option (PartId × PartState)}
    (hstep : ∀ best e, step (some best) e =
      if best.2.cursor < e.2.cursor then some e else some best)
    (entries : List (PartId × PartState)) (best : PartId × PartState) :
    ∃ e before rest, entries.foldl step (some best) = some e ∧
      best :: entries = before ++ e :: rest ∧
      (∀ e' ∈ before, e'.2.cursor < e.2.cursor) ∧ ∀ e' ∈ rest, e'.2.cursor ≤ e.2.cursor := by
  induction entries generalizing best with
  | nil => exact ⟨best, [], [], rfl, rfl, nofun, nofun⟩
  | cons next entries ih =>
    rw [List.foldl_cons, hstep]
    split
    · rename_i hfurther
      obtain ⟨e, before, rest, hfound, hsplit, hbefore, hrest⟩ := ih next
      have hnext : next.2.cursor ≤ e.2.cursor :=
        cursor_le_of_split hbefore hrest next (hsplit ▸ List.mem_cons_self)
      refine ⟨e, best :: before, rest, hfound, by rw [hsplit, List.cons_append], ?_, hrest⟩
      intro e' he'
      rcases List.mem_cons.mp he' with rfl | he'
      · omega
      · exact hbefore e' he'
    · rename_i hnot
      obtain ⟨e, before, rest, hfound, hsplit, hbefore, hrest⟩ := ih best
      cases before with
      | nil =>
        obtain ⟨rfl, rfl⟩ := List.cons.inj hsplit
        refine ⟨best, [], next :: entries, hfound, rfl, nofun, fun e' he' => ?_⟩
        rcases List.mem_cons.mp he' with rfl | he'
        · omega
        · exact hrest e' he'
      | cons first before =>
        obtain ⟨rfl, rfl⟩ := List.cons.inj hsplit
        have hbest := hbefore best List.mem_cons_self
        refine ⟨e, best :: next :: before, rest, hfound, rfl, fun e' he' => ?_, hrest⟩
        rcases List.mem_cons.mp he' with rfl | he'
        · exact hbest
        · rcases List.mem_cons.mp he' with rfl | he'
          · omega
          · exact hbefore e' (List.mem_cons_of_mem _ he')

/-- With a part there is one that is furthest along. It is declared after parts that are less far,
and before parts that are not further. -/
private theorem exists_furthest?_eq {r : Roster} (hne : r.entries ≠ []) :
    ∃ e before rest, r.furthest? = some e ∧ r.entries = before ++ e :: rest ∧
      (∀ e' ∈ before, e'.2.cursor < e.2.cursor) ∧ ∀ e' ∈ rest, e'.2.cursor ≤ e.2.cursor := by
  obtain ⟨first, rest, hentries⟩ := List.exists_cons_of_ne_nil hne
  rw [furthest?, hentries, List.foldl_cons]
  exact foldl_furthest (fun _ _ => rfl) rest first

/-- No part is furthest along exactly if none is declared. -/
theorem furthest?_eq_none {r : Roster} : r.furthest? = none ↔ r.entries = [] := by
  constructor
  · intro hnone
    by_contra hne
    obtain ⟨e, -, -, hfound, -⟩ := exists_furthest?_eq hne
    rw [hnone] at hfound
    cases hfound
  · intro hnil
    rw [furthest?, hnil, List.foldl_nil]

/-- The part that is furthest along is declared after parts that are less far, and before parts that
are not further. -/
theorem exists_split_of_furthest? {r : Roster} {e : PartId × PartState}
    (h : r.furthest? = some e) :
    ∃ before rest, r.entries = before ++ e :: rest ∧
      (∀ e' ∈ before, e'.2.cursor < e.2.cursor) ∧ ∀ e' ∈ rest, e'.2.cursor ≤ e.2.cursor := by
  have hne : r.entries ≠ [] := fun hnil => by
    rw [furthest?_eq_none.mpr hnil] at h
    cases h
  obtain ⟨e', before, rest, hfound, hsplit⟩ := exists_furthest?_eq hne
  obtain rfl := Option.some.inj (hfound.symm.trans h)
  exact ⟨before, rest, hsplit⟩

/-- The part that is furthest along is declared. -/
theorem mem_of_furthest? {r : Roster} {e : PartId × PartState} (h : r.furthest? = some e) :
    e.1 ∈ r.ids ∧ r.state e.1 = e.2 := by
  obtain ⟨before, rest, hsplit, -⟩ := exists_split_of_furthest? h
  have hmem : e ∈ r.entries := by simp [hsplit]
  exact ⟨List.mem_map.mpr ⟨e, hmem, rfl⟩, state_of_mem hmem⟩

/-- No part is furthest along exactly if none is declared, and no declared part is further along
than the one that is. -/
theorem furthest?_spec (r : Roster) : (r.furthest? = none ↔ r.ids = []) ∧
    ∀ e, r.furthest? = some e → ∀ id ∈ r.ids, (r.state id).cursor ≤ e.2.cursor := by
  constructor
  · rw [furthest?_eq_none, ids, List.map_eq_nil_iff]
  · intro e he id hid
    obtain ⟨before, rest, hsplit, hbefore, hrest⟩ := exists_split_of_furthest? he
    obtain ⟨e', he', rfl⟩ := List.mem_map.mp hid
    rw [state_of_mem he']
    exact cursor_le_of_split hbefore hrest e' (hsplit ▸ he')

/-- The furthest cursor is that of the part that is furthest along. -/
theorem furthestCursor_eq {r : Roster} {e : PartId × PartState} (h : r.furthest? = some e) :
    r.furthestCursor = e.2.cursor := by
  obtain ⟨before, rest, hsplit, hbefore, hrest⟩ := exists_split_of_furthest? h
  have hmax : (r.entries.map (fun e => e.2.cursor)).max? = some e.2.cursor := by
    rw [List.max?_eq_some_iff, hsplit]
    refine ⟨List.mem_map.mpr ⟨e, by simp, rfl⟩, fun cursor hcursor => ?_⟩
    obtain ⟨e', he', rfl⟩ := List.mem_map.mp hcursor
    exact cursor_le_of_split hbefore hrest e' he'
  rw [furthestCursor, hmax, Option.getD_some]

end Roster

/-! ### Steps that change one part -/

namespace Score

/-- How often a rest was due so far: the rests that were written and those that were too short. -/
def tries (s : Score) : Int := s.statistics.total.rests + s.statistics.total.restsSkipped

/-- A step that gives a part another state, with some rests that were due, and writes nothing. -/
structure Alters (id : PartId) (part : PartState) (rests : Int) (s s' : Score) : Prop where
  lines : s'.lines = s.lines
  roster : s'.roster = s.roster.modify id (fun _ => part)
  lanes : s'.lanes = s.lanes
  current : s'.current = s.current
  key : s'.key = s.key
  slice : s'.slice = s.slice
  markers : s'.markers = s.markers
  tries : s'.tries = s.tries + rests

namespace Alters

variable {id : PartId} {part part' : PartState} {m n : Int} {s s' s'' : Score}

/-- Of two steps that change one part the second one counts. -/
theorem trans (h : Alters id part m s s') (h' : Alters id part' n s' s'') :
    Alters id part' (m + n) s s'' where
  lines := h'.lines.trans h.lines
  roster := by
    rw [h'.roster, h.roster, Roster.modify_modify]
    rfl
  lanes := h'.lanes.trans h.lanes
  current := h'.current.trans h.current
  key := h'.key.trans h.key
  slice := h'.slice.trans h.slice
  markers := h'.markers.trans h.markers
  tries := by rw [h'.tries, h.tries, Int.add_assoc]

/-- The step keeps the parts and their order. -/
theorem ids (h : Alters id part n s s') : s'.roster.ids = s.roster.ids := by
  rw [h.roster, Roster.ids_modify]

/-- A declared part has its new state, and the other parts have their old ones. -/
theorem part_eq (h : Alters id part n s s') (hid : id ∈ s.roster.ids) (id' : PartId) :
    s'.part id' = if id' = id then part else s.part id' := by
  rw [Score.part, h.roster, Roster.state_modify]
  simp [hid, Score.part]

/-- The part of the step has its new state. -/
theorem part_self (h : Alters id part n s s') (hid : id ∈ s.roster.ids) : s'.part id = part := by
  rw [h.part_eq hid, if_pos rfl]

/-- The step moves no part back unless it moves its own part back. -/
theorem cursor_le (h : Alters id part n s s') (hpart : (s.part id).cursor ≤ part.cursor)
    (id' : PartId) : (s.part id').cursor ≤ (s'.part id').cursor := by
  rw [Score.part, Score.part, h.roster, Roster.state_modify]
  split
  · rename_i hself
    exact hself.1 ▸ hpart
  · exact Int.le_refl _

/-- Nothing happens. -/
theorem refl (id : PartId) (s : Score) : Alters id (s.part id) 0 s s where
  lines := rfl
  roster := (Roster.modify_self rfl).symm
  lanes := rfl
  current := rfl
  key := rfl
  slice := rfl
  markers := rfl
  tries := (Int.add_zero _).symm

end Alters

/-- Selecting a part changes no part. -/
@[simp] theorem roster_select (s : Score) (id : PartId) : (s.select id).roster = s.roster := by
  unfold select
  split <;> rfl

/-- A part that is selected is the selected one. -/
@[simp] theorem current_select (s : Score) (id : PartId) : (s.select id).current = some id := by
  unfold select
  split
  · assumption
  · rfl

/-- Changing the state of a part changes nothing else. -/
theorem modifyPart_alters (s : Score) (id : PartId) (f : PartState → PartState) :
    Alters id (f (s.part id)) 0 s (s.modifyPart id f) where
  lines := rfl
  roster := Roster.modify_congr rfl
  lanes := rfl
  current := rfl
  key := rfl
  slice := rfl
  markers := rfl
  tries := (Int.add_zero _).symm

/-- Counting and noticing change no part. -/
theorem count_alters {s : Score} {n : Int} (id : PartId) (notices : Array Notice)
    {statistics : Statistics}
    (h : statistics.total.rests + statistics.total.restsSkipped = s.tries + n) :
    Alters id (s.part id) n s { s with notices, statistics } where
  lines := rfl
  roster := (Roster.modify_self rfl).symm
  lanes := rfl
  current := rfl
  key := rfl
  slice := rfl
  markers := rfl
  tries := h

end Score

/-! ### Rests -/

/-- An advance changes the cursor only. -/
@[simp] theorem PartState.octave_advanceTo (part : PartState) (tick : Int) :
    (part.advanceTo tick).octave = part.octave := by
  unfold advanceTo
  split <;> rfl

@[simp] theorem PartState.length_advanceTo (part : PartState) (tick : Int) :
    (part.advanceTo tick).length = part.length := by
  unfold advanceTo
  split <;> rfl

/-- The state of a part after a rest of some ticks, or of fewer than can be written. -/
def PartState.resting (t : LengthTables) (ticks : Int) (part : PartState) : PartState :=
  { part with length := (t.restText? ticks).getD part.length }

namespace Score

variable {p : Plan}

/-- A rest gives its part the length of the rest, if the gap can be written, and counts in any case
unless there is no gap. -/
theorem rest_alters (p : Plan) (id : PartId) (ticks tick : Int) (s : Score) :
    (s.rest p id ticks tick).1 = p.tables.restText? ticks ∧
      Alters id ((s.part id).resting p.tables ticks) (if 0 < ticks then 1 else 0) s
        (s.rest p id ticks tick).2 := by
  unfold rest PartState.resting LengthTables.restText?
  by_cases hgap : ticks ≤ 0
  · rw [if_pos hgap, if_pos (Or.inl hgap), if_neg (by omega)]
    exact ⟨rfl, Alters.refl id s⟩
  · rw [if_neg hgap, if_pos (by omega : 0 < ticks)]
    by_cases hnil : p.tables.restSummands ticks = []
    · rw [if_pos (Or.inr hnil), if_pos hnil]
      refine ⟨rfl, count_alters (s := s) id (s.warn (restWarning id ticks tick)).notices ?_⟩
      simp only [tries, Statistics.add, Counters.add, warn, addNotice]
      omega
    · rw [if_neg (not_or.mpr ⟨hgap, hnil⟩), if_neg hnil]
      let tokens := (p.tables.restSummands ticks).map Prod.snd
      have hcount : Alters id (s.part id) 1 s
          { s with statistics := s.statistics.count id.channel.val .rest tokens } := by
        refine count_alters id s.notices ?_
        simp only [tries, Statistics.count, Statistics.countTokens, Statistics.add,
          Counters.add, Item.count, Item.summands, Item.triplets]
        omega
      exact ⟨rfl, hcount.trans (modifyPart_alters _ id (fun part =>
        { part with length := LengthTable.text (p.tables.restSummands ticks) }))⟩

end Score

end Transcription
