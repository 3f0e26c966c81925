import Mathlib.Data.List.Induction
import Transcription.Part.Registry
import Transcription.Proofs.Reading.Text
import Transcription.Proofs.Recording.WellFormed
import Transcription.Proofs.Score.Frame

/-!
# The registry is an ordered set of parts

No two parts have one label, so what is found under the label of a part is this part. This makes a
registry the roster of its parts in another form, with every part at its place, and what one
operation does to a roster is known.
-/

namespace Transcription

/-! ### Numbers of channels and programs -/

/-- A number is that of a channel exactly when the channel has the number. -/
theorem Channel.ofInt_eq_ok {n : Int} {channel : Channel} :
    Channel.ofInt n = .ok channel ↔ (channel.val : Int) = n := by
  have hlt : channel.val < 16 := channel.isLt
  unfold Channel.ofInt
  split
  · rw [Except.ok.injEq, Fin.ext_iff]
    simp only
    omega
  · exact ⟨nofun, fun h => by omega⟩

/-- Other numbers are refused as values. -/
theorem Channel.kind_of_ofInt {n : Int} {e : Failure} (he : Channel.ofInt n = .error e) :
    e.kind = .value := by
  unfold Channel.ofInt at he
  split at he
  · cases he
  · cases he
    rfl

/-- A number is that of a program exactly when the program has the number. -/
theorem Program.ofInt_eq_ok {n : Int} {program : Program} :
    Program.ofInt n = .ok program ↔ (program.val : Int) = n := by
  have hlt := program.isLt
  unfold Program.ofInt
  split
  · rw [Except.ok.injEq, Fin.ext_iff]
    simp only
    omega
  · exact ⟨nofun, fun h => by omega⟩

/-- Other numbers are refused as values. -/
theorem Program.kind_of_ofInt {n : Int} {e : Failure} (he : Program.ofInt n = .error e) :
    e.kind = .value := by
  unfold Program.ofInt at he
  split at he
  · cases he
  · cases he
    rfl

/-- A part has the numbers of its channel and its program. -/
theorem PartId.ofInts_eq_ok {channel program : Int} {id : PartId} :
    PartId.ofInts channel program = .ok id ↔
      (id.channel.val : Int) = channel ∧ (id.program.val : Int) = program := by
  rw [← Channel.ofInt_eq_ok, ← Program.ofInt_eq_ok]
  unfold PartId.ofInts
  constructor
  · intro hok
    obtain ⟨c, hc, hok⟩ := bind_eq_ok.mp hok
    obtain ⟨p, hp, hok⟩ := bind_eq_ok.mp hok
    cases hok
    exact ⟨hc, hp⟩
  · rintro ⟨hc, hp⟩
    rw [hc, hp]
    rfl

/-- Every pair of numbers in range is that of a part. -/
theorem PartId.ofInts_ne_error {channel program : Int} (hchannel : 0 ≤ channel ∧ channel ≤ 15)
    (hprogram : 0 ≤ program ∧ program ≤ 127) (e : Failure) :
    PartId.ofInts channel program ≠ .error e := by
  rw [ofInts, Channel.ofInt, dif_pos hchannel, Program.ofInt, dif_pos hprogram]
  exact nofun

/-- A declaration adds the part with its numbers to a roster. Without such a part it is refused as a
value. -/
theorem Roster.declare_cases (r : Roster) (channel program : Int) :
    (∃ id, PartId.ofInts channel program = .ok id ∧
      r.declare channel program = .ok (id, decide (id ∉ r.ids), r.add id)) ∨
    ∃ e e', PartId.ofInts channel program = .error e ∧
      r.declare channel program = .error e' ∧ e'.kind = .value := by
  cases hchannel : Channel.ofInt channel with
  | ok lane =>
    cases hprogram : Program.ofInt program with
    | ok named => exact Or.inl ⟨⟨lane, named⟩, by rw [PartId.ofInts, hchannel, hprogram]; rfl,
        by rw [declare, hchannel, hprogram]; rfl⟩
    | error e => exact Or.inr ⟨e, e, by rw [PartId.ofInts, hchannel, hprogram]; rfl,
        by rw [declare, hprogram]; rfl, Program.kind_of_ofInt hprogram⟩
  | error e =>
    have hnone : PartId.ofInts channel program = .error e := by rw [PartId.ofInts, hchannel]; rfl
    cases hprogram : Program.ofInt program with
    | ok named => exact Or.inr ⟨e, e, hnone, by rw [declare, hchannel, hprogram]; rfl,
        Channel.kind_of_ofInt hchannel⟩
    | error e' => exact Or.inr ⟨e, e', hnone, by rw [declare, hprogram]; rfl,
        Program.kind_of_ofInt hprogram⟩

namespace Registering

/-- What a declaration does, step by step. -/
theorem run_declare (channel program : Int) (g : Registry) :
    (declare channel program).run g =
      match Program.ofInt program with
      | .error e => .error e g
      | .ok named =>
        match g.place? (named.labelOn channel) with
        | some place => .ok (place, false) g
        | none =>
          match PartId.ofInts channel program with
          | .error e => .error e g
          | .ok id => .ok (g.parts.length, true) (g.enter (named.labelOn channel) id) := by
  cases hprogram : Program.ofInt program with
  | error e =>
    simp only [declare, hprogram]
    rfl
  | ok named =>
    have hrun : (declare channel program).run g =
        (match g.place? (named.labelOn channel) with
          | some place => pure (place, false)
          | none => do
            let id ← MonadExcept.ofExcept (PartId.ofInts channel program)
            set (g.enter (named.labelOn channel) id)
            return (g.parts.length, true) : Registering (Nat × Bool)).run g := by
      simp only [declare, hprogram]
      rfl
    rw [hrun]
    simp only
    cases g.place? (named.labelOn channel) with
    | some place => rfl
    | none =>
      simp only
      cases PartId.ofInts channel program <;> rfl

end Registering

/-! ### Rosters as registries -/

namespace Registry

/-- The registry of a roster: every part is at its place in the roster. -/
def ofRoster (r : Roster) : Registry where
  parts := r.entries
  places := r.ids.zipIdx.map (fun e => (e.1.label, e.2))

variable {r : Roster} {id : PartId}

/-- Under the label of a part is its place. -/
theorem place?_label (hid : id ∈ r.ids) : (ofRoster r).place? id.label = some (r.ids.idxOf id) := by
  have hplaces (ids : List PartId) (k : Nat) (hid : id ∈ ids) :
      (((ids.zipIdx k).map (fun e => (e.1.label, e.2))).find? (fun e => e.1 = id.label)).map
        Prod.snd = some (ids.idxOf id + k) := by
    induction ids generalizing k with
    | nil => exact absurd hid List.not_mem_nil
    | cons first rest ih =>
      rw [List.zipIdx_cons, List.map_cons, List.find?_cons, List.idxOf_cons]
      by_cases hfirst : first = id
      · simp [hfirst]
      · have hlabel : first.label ≠ id.label := fun h => hfirst (PartId.label_injective h)
        have hrest : id ∈ rest := (List.mem_cons.mp hid).resolve_left (Ne.symm hfirst)
        have hnext := ih (k + 1) hrest
        simp only [hlabel, decide_false, hnext, beq_eq_false_iff_ne.mpr hfirst, cond_false]
        congr 1
        omega
  exact hplaces r.ids 0 hid

/-- Under a label that no part has is nothing. -/
theorem place?_eq_none {label : String} (h : ∀ id ∈ r.ids, id.label ≠ label) :
    (ofRoster r).place? label = none := by
  rw [place?, Option.map_eq_none_iff, List.find?_eq_none]
  intro e he
  obtain ⟨x, hx, rfl⟩ := List.mem_map.mp he
  have hmem : x.1 ∈ r.ids := List.mem_of_getElem? (List.mem_zipIdx_iff_getElem?.mp hx)
  simpa using h x.1 hmem

/-- The parts of the registry of a roster are those of the roster, in its order. -/
@[simp] theorem entries_ofRoster (r : Roster) : (ofRoster r).entries = r.entries := by
  have hsome : ∀ e ∈ r.entries.zipIdx, r.entries[e.2]? = some e.1 := fun e he =>
    List.mem_zipIdx_iff_getElem?.mp he
  have hplaces : (ofRoster r).places = r.entries.zipIdx.map (fun e => (e.1.1.label, e.2)) := by
    rw [ofRoster, Roster.ids, List.zipIdx_map, List.map_map]
    rfl
  rw [entries, hplaces, List.filterMap_map]
  calc r.entries.zipIdx.filterMap (fun e => r.entries[e.2]?)
      = r.entries.zipIdx.filterMap (fun e => some e.1) := List.filterMap_congr hsome
    _ = r.entries := by rw [List.filterMap_eq_map', List.zipIdx_map_fst]

/-- Entering a new part under its label adds it to the roster. -/
theorem enter_ofRoster (hnew : id ∉ r.ids) :
    (ofRoster r).enter id.label id = ofRoster (r.add id) := by
  have hentries : (r.add id).entries = r.entries ++ [(id, ({} : PartState))] := by
    rw [Roster.add, dif_neg (show id ∉ r.entries.map Prod.fst from hnew)]
  have hlength : r.ids.length = r.entries.length := List.length_map _
  simp only [enter, ofRoster, mk.injEq]
  refine ⟨hentries.symm, ?_⟩
  rw [r.ids_add, if_neg hnew, List.zipIdx_append, List.map_append, Nat.zero_add, hlength]
  rfl

/-- Moving the part at a place on changes its state in the roster. -/
theorem advance_ofRoster (r : Roster) (place : Nat) (tick : Int) :
    (ofRoster r).advance place tick =
      match r.ids[place]? with
      | none => ofRoster r
      | some id => ofRoster (r.modify id (fun part => part.advanceTo tick)) := by
  -- no part is at two places
  have hplace {j : Nat} {e : PartId × PartState} (he : r.entries[j]? = some e) :
      place = j ↔ r.ids[place]? = some e.1 := by
    have hid : r.ids[j]? = some e.1 := by rw [Roster.ids, List.getElem?_map, he, Option.map_some]
    have hj : j < r.ids.length := (List.getElem?_eq_some_iff.mp hid).1
    rw [← hid, eq_comm, ← List.getElem?_inj hj r.nodup, eq_comm]
  have hparts (j : Nat) : (r.entries.modify place (fun e => (e.1, e.2.advanceTo tick)))[j]? =
      (r.entries[j]?).map
        (fun e => if r.ids[place]? = some e.1 then (e.1, e.2.advanceTo tick) else e) := by
    rw [List.getElem?_modify]
    cases he : r.entries[j]? with
    | none => rfl
    | some e => simp only [Option.map_eq_map, Option.map_some, hplace he]
  cases hid : r.ids[place]? with
  | none =>
    have hsame : r.entries.modify place (fun e => (e.1, e.2.advanceTo tick)) = r.entries := by
      refine List.ext_getElem? (fun j => ?_)
      rw [hparts, hid]
      simp
    simp only [advance, ofRoster, hsame]
  | some id =>
    have hmodify : r.entries.modify place (fun e => (e.1, e.2.advanceTo tick)) =
        (r.modify id (fun part => part.advanceTo tick)).entries := by
      refine List.ext_getElem? (fun j => ?_)
      rw [hparts, hid, Roster.modify, List.getElem?_map]
      simp only [Option.some.injEq, eq_comm]
    simp only [advance, ofRoster, hmodify, Roster.ids_modify]

end Registry

namespace Registering

open Registry (ofRoster)

variable {r : Roster} {id : PartId} {channel program : Int}

/-- A declaration does to the registry of a roster what it does to the roster. -/
theorem run_declare_ofRoster (channel program : Int) (r : Roster) :
    (declare channel program).run (ofRoster r) =
      match r.declare channel program with
      | .error e => .error e (ofRoster r)
      | .ok (id, isNew, r') => .ok (r'.ids.idxOf id, isNew) (ofRoster r') := by
  rw [run_declare]
  cases hprogram : Program.ofInt program with
  | error e =>
    have hroster : r.declare channel program = .error e := by
      rw [Roster.declare, hprogram]
      rfl
    rw [hroster]
  | ok named =>
    cases hchannel : Channel.ofInt channel with
    | error e =>
      -- the label of a channel with any other number is none of a part
      have hnone : (ofRoster r).place? (named.labelOn channel) = none := by
        refine Registry.place?_eq_none (fun id _ h => ?_)
        have hok := Channel.ofInt_eq_ok.mpr (Program.labelOn_injective h).2
        rw [hchannel] at hok
        cases hok
      have hid : PartId.ofInts channel program = .error e := by
        rw [PartId.ofInts, hchannel]
        rfl
      have hroster : r.declare channel program = .error e := by
        rw [Roster.declare, hprogram, hchannel]
        rfl
      simp only [hnone, hid, hroster]
    | ok lane =>
      obtain rfl := Channel.ofInt_eq_ok.mp hchannel
      have hid : PartId.ofInts lane.val program = .ok ⟨lane, named⟩ := by
        rw [PartId.ofInts, hchannel, hprogram]
        rfl
      have hroster : r.declare lane.val program =
          .ok (⟨lane, named⟩, decide (⟨lane, named⟩ ∉ r.ids), r.add ⟨lane, named⟩) := by
        rw [Roster.declare, hprogram, hchannel]
        rfl
      have hlabel : named.labelOn lane.val = (⟨lane, named⟩ : PartId).label := rfl
      rw [hid, hroster]
      simp only [hlabel]
      generalize (⟨lane, named⟩ : PartId) = id
      by_cases hmem : id ∈ r.ids
      · have hadd : r.add id = r := dif_pos hmem
        simp [Registry.place?_label hmem, hadd, hmem]
      · have hnone : (ofRoster r).place? id.label = none :=
          Registry.place?_eq_none (fun id' hid' h => hmem (PartId.label_injective h ▸ hid'))
        have hplace : (r.ids ++ [id]).idxOf id = r.entries.length := by
          rw [List.idxOf_append, if_neg hmem, List.idxOf_cons_self, Nat.zero_add, Roster.ids,
            List.length_map]
        simp only [hnone, Registry.enter_ofRoster hmem, r.ids_add, if_neg hmem, hplace,
          decide_eq_true hmem]
        rfl

/-- A part that has a place is declared, and this is its only place. -/
theorem idxOf_eq {place : Nat} {part : PartState} (h : r.entries[place]? = some (id, part)) :
    id ∈ r.ids ∧ r.ids.idxOf id = place := by
  have hid : r.ids[place]? = some id := by rw [Roster.ids, List.getElem?_map, h, Option.map_some]
  obtain ⟨hplace, heq⟩ := List.getElem?_eq_some_iff.mp hid
  have hnodup : r.ids.Nodup := r.nodup
  refine ⟨List.mem_of_getElem? hid, ?_⟩
  rw [← heq, hnodup.idxOf_getElem place hplace]

/-- A part that is declared has a place, in the state that it had before. -/
theorem getElem?_add (r : Roster) (id : PartId) :
    (r.add id).entries[(r.add id).ids.idxOf id]? = some (id, r.state id) := by
  have hmem : id ∈ (r.add id).ids := by
    rw [r.ids_add]
    split
    · assumption
    · exact List.mem_append_right _ List.mem_cons_self
  have hplace := List.getElem?_idxOf hmem
  rw [Roster.ids, List.getElem?_map] at hplace
  obtain ⟨e, he, hfirst⟩ := Option.map_eq_some_iff.mp hplace
  have hstate := Roster.state_of_mem (List.mem_of_getElem? he)
  rw [hfirst, Roster.state_add] at hstate
  rw [Roster.ids, he, hstate, ← hfirst]

/-! ### Histories -/

namespace Operation

/-- The part that an operation declares, if it declares one. -/
def part? : Operation → Option PartId
  | declare channel program => (PartId.ofInts channel program).toOption
  | advance _ _ => none

/-- What an operation makes of the state of the part at a place. -/
def onState (place : Nat) (part : PartState) : Operation → PartState
  | declare _ _ => part
  | advance moved tick => if moved = place then part.advanceTo tick else part

/-- An operation leaves the registry of a roster, to which it adds the part that it declares. -/
theorem exists_after_ofRoster (op : Operation) (r : Roster) :
    ∃ r', op.after (ofRoster r) = ofRoster r' ∧
      r'.ids = match op.part? with
        | none => r.ids
        | some id => if id ∈ r.ids then r.ids else r.ids ++ [id] := by
  cases op with
  | declare channel program =>
    rcases r.declare_cases channel program with ⟨id, hid, hdeclare⟩ | ⟨e, e', hid, hdeclare, -⟩
    · refine ⟨r.add id, by simp only [after, run_declare_ofRoster, hdeclare], ?_⟩
      simp [part?, hid, Except.toOption, r.ids_add]
    · refine ⟨r, by simp only [after, run_declare_ofRoster, hdeclare], ?_⟩
      simp [part?, hid, Except.toOption]
  | advance place tick =>
    rw [after, Registry.advance_ofRoster]
    cases r.ids[place]? with
    | none => exact ⟨r, rfl, rfl⟩
    | some id => exact ⟨_, rfl, Roster.ids_modify ..⟩

/-- An operation leaves a part at its place, and changes its state if it moves this part. -/
theorem getElem?_after {g : Registry} {place : Nat} {e : PartId × PartState}
    (he : g.parts[place]? = some e) (op : Operation) :
    (op.after g).parts[place]? = some (e.1, op.onState place e.2) := by
  cases op with
  | declare channel program =>
    obtain ⟨more, hparts⟩ :
        ∃ more, ((declare channel program).after g).parts = g.parts ++ more := by
      rw [after, run_declare]
      cases Program.ofInt program with
      | error e => exact ⟨[], (List.append_nil _).symm⟩
      | ok named =>
        simp only
        cases g.place? (named.labelOn channel) with
        | some place => exact ⟨[], (List.append_nil _).symm⟩
        | none =>
          simp only
          cases PartId.ofInts channel program with
          | error e => exact ⟨[], (List.append_nil _).symm⟩
          | ok id => exact ⟨[(id, {})], rfl⟩
    have hplace : place < g.parts.length := (List.getElem?_eq_some_iff.mp he).1
    rw [hparts, List.getElem?_append_left hplace, he, onState]
  | advance moved tick =>
    simp only [after, Registry.advance, List.getElem?_modify, he, onState]
    split <;> rfl

end Operation

/-- Operations leave a part at its place, and change its state as far as they move it. -/
theorem getElem?_after {g : Registry} {place : Nat} {e : PartId × PartState}
    (he : g.parts[place]? = some e) (ops : List Operation) :
    (after g ops).parts[place]? = some (e.1, ops.foldl (Operation.onState place) e.2) := by
  induction ops generalizing g e with
  | nil => exact he
  | cons op rest ih => exact ih (op.getElem?_after he)

/-- The operations of two histories follow one another. -/
theorem after_append (g : Registry) (ops later : List Operation) :
    after g (ops ++ later) = after (after g ops) later := List.foldl_append

/-- An item at the end of a list is left out if it is there already. -/
theorem eraseDups_concat {α : Type} [BEq α] [LawfulBEq α] (l : List α) (a : α) :
    (l ++ [a]).eraseDups = if a ∈ l then l.eraseDups else l.eraseDups ++ [a] := by
  rw [List.eraseDups_append]
  split
  · rename_i hmem
    have hnone : [a].removeAll l = [] := by simp [List.removeAll, hmem]
    rw [hnone, List.eraseDups_nil, List.append_nil]
  · rename_i hmem
    have hkept : [a].removeAll l = [a] := by simp [List.removeAll, hmem]
    rw [hkept]
    rfl

/-- After every history the registry is that of a roster, in which the declared parts stand in the
order of their first declarations. -/
theorem exists_after_eq_ofRoster (ops : List Operation) :
    ∃ r, after {} ops = ofRoster r ∧ r.ids = (ops.filterMap Operation.part?).eraseDups := by
  induction ops using List.reverseRecOn with
  | nil => exact ⟨.empty, rfl, rfl⟩
  | append_singleton ops op ih =>
    obtain ⟨r, hr, hids⟩ := ih
    obtain ⟨r', hr', hids'⟩ := op.exists_after_ofRoster r
    refine ⟨r', by rw [after_append, hr]; exact hr', ?_⟩
    rw [hids', List.filterMap_append, hids]
    cases hpart : op.part? with
    | none => rw [List.filterMap_cons_none hpart, List.filterMap_nil, List.append_nil]
    | some id =>
      rw [List.filterMap_cons_some hpart, List.filterMap_nil, eraseDups_concat]
      simp only [List.mem_eraseDups]

/-- Once a part has a place, declaring it gives this place and changes nothing. -/
theorem run_declare_of_place (hid : PartId.ofInts channel program = .ok id) {ops : List Operation}
    {place : Nat} {part : PartState} (h : (after {} ops).parts[place]? = some (id, part)) :
    (declare channel program).run (after {} ops) = .ok (place, false) (after {} ops) := by
  obtain ⟨r, hr, -⟩ := exists_after_eq_ofRoster ops
  rw [hr] at h ⊢
  obtain ⟨hmem, hplace⟩ := idxOf_eq h
  have hadd : r.add id = r := dif_pos hmem
  rcases r.declare_cases channel program with ⟨id', hid', hdeclare⟩ | ⟨e, -, hid', -⟩
  · obtain rfl := Except.ok.inj (hid.symm.trans hid')
    simp only [run_declare_ofRoster, hdeclare, hadd, hplace, decide_eq_false (not_not_intro hmem)]
  · rw [hid] at hid'
    cases hid'

/-- A part is declared before exactly if one of the operations declares it by its numbers. -/
theorem mem_filterMap_part? (hid : PartId.ofInts channel program = .ok id) {ops : List Operation} :
    id ∈ ops.filterMap Operation.part? ↔ .declare channel program ∈ ops := by
  obtain ⟨hchannel, hprogram⟩ := PartId.ofInts_eq_ok.mp hid
  rw [List.mem_filterMap]
  constructor
  · rintro ⟨op, hop, hpart⟩
    cases op with
    | advance place tick => cases hpart
    | declare channel' program' =>
      have hid' : PartId.ofInts channel' program' = .ok id := by
        rw [Operation.part?] at hpart
        cases hresult : PartId.ofInts channel' program' with
        | error e =>
          rw [hresult] at hpart
          cases hpart
        | ok id' =>
          rw [hresult] at hpart
          exact congrArg Except.ok (Option.some.inj hpart)
      obtain ⟨hchannel', hprogram'⟩ := PartId.ofInts_eq_ok.mp hid'
      rwa [← hchannel, ← hprogram, hchannel', hprogram']
  · intro hop
    exact ⟨_, hop, by rw [Operation.part?, hid]; rfl⟩

/-- A declaration with numbers of a channel and a program gives the place of their part. It is new
exactly if it was not declared before, and whatever is done afterwards, declaring it again gives the
same place, where the part has its state as far as it was moved on since. -/
theorem declare_inRange (ops : List Operation) (hchannel : 0 ≤ channel ∧ channel ≤ 15)
    (hprogram : 0 ≤ program ∧ program ≤ 127) :
    ∃ id place isNew g' part,
      ((id.channel.val : Int) = channel ∧ (id.program.val : Int) = program) ∧
      (declare channel program).run (after {} ops) = .ok (place, isNew) g' ∧
      g'.parts[place]? = some (id, part) ∧
      (isNew = true ↔ .declare channel program ∉ ops) ∧ (isNew = true → part = {}) ∧
      (isNew = false → g' = after {} ops) ∧
      ∀ later,
        (declare channel program).run (after g' later) = .ok (place, false) (after g' later) ∧
        (after g' later).parts[place]? =
          some (id, later.foldl (Operation.onState place) part) := by
  obtain ⟨r, hr, hids⟩ := exists_after_eq_ofRoster ops
  obtain ⟨id, hid, hdeclare⟩ : ∃ id, PartId.ofInts channel program = .ok id ∧
      r.declare channel program = .ok (id, decide (id ∉ r.ids), r.add id) := by
    rcases r.declare_cases channel program with hdeclared | ⟨e, -, hid, -⟩
    · exact hdeclared
    · exact absurd hid (PartId.ofInts_ne_error hchannel hprogram e)
  have hrun : (declare channel program).run (after {} ops) =
      .ok ((r.add id).ids.idxOf id, decide (id ∉ r.ids)) (ofRoster (r.add id)) := by
    simp only [hr, run_declare_ofRoster, hdeclare]
  have hplace := getElem?_add r id
  refine ⟨id, _, _, _, _, PartId.ofInts_eq_ok.mp hid, hrun, hplace, ?_, ?_, ?_, fun later => ?_⟩
  · rw [decide_eq_true_eq, hids, List.mem_eraseDups, mem_filterMap_part? hid]
  · intro hnew
    exact Roster.state_of_notMem (of_decide_eq_true hnew)
  · intro hold
    have hmem := not_not.mp (of_decide_eq_false hold)
    rw [show r.add id = r from dif_pos hmem, hr]
  · have hdone : after {} (ops ++ [.declare channel program]) = ofRoster (r.add id) := by
      rw [after_append]
      change (Operation.declare channel program).after (after {} ops) = _
      rw [Operation.after, hrun]
    have hkept := getElem?_after (g := ofRoster (r.add id)) hplace later
    rw [← hdone, ← after_append] at hkept ⊢
    exact ⟨run_declare_of_place hid hkept, hkept⟩

/-- A declaration with other numbers is refused as a value and leaves the registry as it is. -/
theorem declare_outOfRange (ops : List Operation)
    (hrange : ¬((0 ≤ channel ∧ channel ≤ 15) ∧ 0 ≤ program ∧ program ≤ 127)) :
    ∃ e, (declare channel program).run (after {} ops) = .error e (after {} ops) ∧
      e.kind = .value := by
  obtain ⟨r, hr, -⟩ := exists_after_eq_ofRoster ops
  rcases r.declare_cases channel program with ⟨id, hid, -⟩ | ⟨-, e, -, hdeclare, hkind⟩
  · obtain ⟨hchannel, hprogram⟩ := PartId.ofInts_eq_ok.mp hid
    have hlane : id.channel.val < 16 := id.channel.isLt
    have hnamed := id.program.isLt
    omega
  · exact ⟨e, by simp only [hr, run_declare_ofRoster, hdeclare], hkind⟩

/-- The part that is furthest along is the one that is in the roster of the registry. -/
theorem furthest_ofRoster (r : Roster) : (ofRoster r).furthest? = r.furthest? ∧
    (ofRoster r).furthestCursor = r.furthestCursor := by
  constructor
  · rw [Registry.furthest?, Registry.entries_ofRoster]
    rfl
  · rw [Registry.furthestCursor, Registry.entries_ofRoster]
    rfl

/-- **The registry is a faithful ordered set.** After every history of operations on an empty
registry a declaration with numbers of a channel and a program gives the place of the part with
these numbers, which is new exactly if it was not declared before; whatever is done afterwards,
declaring it again gives the same place, and there the part has its state as far as it was moved on
since. A declaration with other numbers is refused as a value and leaves the registry as it is. The
parts stand in the order of their first declarations, each once. None is furthest along exactly if
there is none, and otherwise the cursor of this one is the furthest cursor, and those of the parts
before it are less far. -/
theorem faithful_in_order (ops : List Operation) :
    let g := after {} ops
    (∀ channel program : Int, (0 ≤ channel ∧ channel ≤ 15) → (0 ≤ program ∧ program ≤ 127) →
      ∃ id place isNew g' part,
        ((id.channel.val : Int) = channel ∧ (id.program.val : Int) = program) ∧
        (declare channel program).run g = .ok (place, isNew) g' ∧
        g'.parts[place]? = some (id, part) ∧
        (isNew = true ↔ .declare channel program ∉ ops) ∧ (isNew = true → part = {}) ∧
        (isNew = false → g' = g) ∧
        ∀ later,
          (declare channel program).run (after g' later) = .ok (place, false) (after g' later) ∧
          (after g' later).parts[place]? =
            some (id, later.foldl (Operation.onState place) part)) ∧
    (∀ channel program : Int,
      ¬((0 ≤ channel ∧ channel ≤ 15) ∧ 0 ≤ program ∧ program ≤ 127) →
      ∃ e, (declare channel program).run g = .error e g ∧ e.kind = .value) ∧
    (g.entries = g.parts ∧ g.entries.map Prod.fst = (ops.filterMap Operation.part?).eraseDups ∧
      (g.entries.map Prod.fst).Nodup) ∧
    (g.furthest? = none ↔ ops.filterMap Operation.part? = []) ∧
    ∀ e, g.furthest? = some e → e.2.cursor = g.furthestCursor ∧
      ∃ before rest, g.entries = before ++ e :: rest ∧
        ∀ e' ∈ before, e'.2.cursor < e.2.cursor := by
  intro g
  obtain ⟨r, hr, hids⟩ := exists_after_eq_ofRoster ops
  have hg : g = ofRoster r := hr
  have hentries : g.entries = r.entries := by rw [hg, Registry.entries_ofRoster]
  obtain ⟨hfurthest, hcursor⟩ := furthest_ofRoster r
  refine ⟨fun channel program => declare_inRange ops, fun channel program => declare_outOfRange ops,
    ⟨?places, ?order, ?once⟩, ?none, fun e he => ?furthest⟩
  case places =>
    rw [hentries, hg]
    rfl
  case order =>
    rw [hentries]
    exact hids
  case once =>
    rw [hentries]
    exact r.nodup
  case none =>
    rw [hg, hfurthest, r.furthest?_spec.1, hids]
    simp only [List.eq_nil_iff_forall_not_mem, List.mem_eraseDups]
  case furthest =>
    rw [hg, hfurthest] at he
    obtain ⟨before, rest, hsplit, hbefore, -⟩ := Roster.exists_split_of_furthest? he
    rw [hentries, hg, hcursor]
    exact ⟨(Roster.furthestCursor_eq he).symm, before, rest, hsplit, hbefore⟩

/-- Two parts that are moved on to one tick, and one that is refused: the first of them is furthest
along, and declaring it again finds it there. -/
theorem faithful_in_order_tie :
    let g := after {} [.declare 3 40, .declare 0 0, .advance 1 480, .advance 0 480, .declare 16 0]
    (∃ place part, (declare 3 40).run g = .ok (place, false) g ∧
      g.parts[place]? = some (⟨3, 40⟩, part) ∧ part.cursor = 480) ∧
    (∃ e, (declare 16 0).run g = .error e g ∧ e.kind = .value) ∧
    g.entries.map Prod.fst = [⟨3, 40⟩, ⟨0, 0⟩] ∧
    ∃ e, g.furthest? = some e ∧ e.1 = ⟨3, 40⟩ ∧ e.2.cursor = g.furthestCursor := by
  intro g
  obtain ⟨hdeclared, hrefused, ⟨-, horder, -⟩, -, hfurthest⟩ := faithful_in_order
    [.declare 3 40, .declare 0 0, .advance 1 480, .advance 0 480, .declare 16 0]
  obtain ⟨id, place, isNew, g', part, hid, hrun, hplace, hnew, -, hold, -⟩ :=
    hdeclared 3 40 (by decide) (by decide)
  have hagain : isNew = false := by
    rw [← Bool.not_eq_true, hnew]
    simp
  have hsame : id = ⟨3, 40⟩ :=
    Except.ok.inj ((PartId.ofInts_eq_ok.mpr hid).symm.trans (by decide +kernel))
  obtain rfl := hold hagain
  have hcursor : ∀ e ∈ g.parts, e.2.cursor = 480 := by decide +kernel
  obtain ⟨e, he, hfirst⟩ : ∃ e, g.furthest? = some e ∧ e.1 = ⟨3, 40⟩ := by
    have hfound : g.furthest? = some (⟨3, 40⟩, { cursor := 480 }) := by decide +kernel
    exact ⟨_, hfound, rfl⟩
  exact ⟨⟨place, part, hagain ▸ hrun, hsame ▸ hplace, hcursor _ (List.mem_of_getElem? hplace)⟩,
    hrefused 16 0 (by decide), horder.trans (by decide +kernel), e, he, hfirst,
    (hfurthest e he).1⟩

end Registering

end Transcription
