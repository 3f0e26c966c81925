import Transcription.Proofs.Slice.Bounds
import Transcription.Slice.Building

/-!
# Cutting never fails

Boundaries are not negative and ascend, so every slice can be opened and closed; no slice is frozen
before everything is put into it; and there is always a slice in which a tick can be looked up. So
all checks pass when a well-formed recording is cut step by step, and what comes out are its slices.
-/

namespace Transcription

namespace Recording

variable {r : Recording}

/-! ### Opening -/

/-- No slice begins before the start. -/
theorem boundaries_nonneg {tick : Int} (h : tick ∈ r.boundaries) : 0 ≤ tick := by
  rcases List.mem_cons.mp h with rfl | h
  · exact Int.le_refl 0
  · have hpos : 0 < tick := by simpa using (List.mem_filter.mp h).2
    omega

/-- All slices can be opened and closed. -/
theorem openSlices_eq (r : Recording) :
    r.openSlices = .ok (r.bounds.map (fun b => { beginTick := b.1, endTick := b.2 })) := by
  have hnew : r.boundaries.mapM Slice.new =
      .ok (r.boundaries.map (fun tick => { beginTick := tick })) := by
    apply mapM_eq_ok
    intro tick htick
    have := boundaries_nonneg htick
    rw [Slice.new, if_neg (by omega)]
  refine bind_eq_ok.mpr ⟨_, hnew, ?_⟩
  have hends : ((r.boundaries.map (fun tick => ({ beginTick := tick } : Slice))).drop 1).map
      Slice.beginTick = r.boundaries.drop 1 := by
    rw [← List.map_drop, List.map_map]
    exact List.map_id _
  have hpairs : (r.boundaries.map (fun tick => ({ beginTick := tick } : Slice))).zip
      (r.boundaries.drop 1 ++ [r.sliceEnd]) =
      r.bounds.map (fun b => ({ beginTick := b.1 }, b.2)) := by
    rw [bounds, List.zip_map_left]
    rfl
  have hclose : (r.bounds.map (fun b => (({ beginTick := b.1 } : Slice), b.2))).mapM
      (fun s => s.1.close s.2) =
      .ok ((r.bounds.map (fun b => (({ beginTick := b.1 } : Slice), b.2))).map
        (fun s => { s.1 with endTick := s.2 })) := by
    apply mapM_eq_ok
    intro s hs
    obtain ⟨b, hb, rfl⟩ := List.mem_map.mp hs
    have hlt := (r.contiguous_bounds.first_le hb).2
    have hopen : ({ beginTick := b.1 } : Slice).checkOpen = .ok () := rfl
    simp only [Slice.close, hopen, bind, Except.bind, pure, Except.pure]
    rw [if_neg (by omega)]
  dsimp only
  rw [hends, hpairs, hclose, List.map_map]
  rfl

private theorem foldlM_addCommand {s : Slice} (hopen : s.frozen = false)
    (commands : List (String × String)) :
    commands.foldlM (fun s e => s.addCommand e.1 e.2) s =
      .ok { s with globals := commands.foldl (fun t e => t.insert e.1 e.2) s.globals } := by
  induction commands generalizing s with
  | nil => rfl
  | cons e rest ih =>
    have hfirst : s.addCommand e.1 e.2 = .ok { s with globals := s.globals.insert e.1 e.2 } := by
      simp [Slice.addCommand, Slice.checkOpen, hopen, bind, Except.bind, pure, Except.pure]
    rw [List.foldlM_cons, hfirst]
    exact ih hopen

/-- An open slice takes the commands at its begin and its excerpts. -/
theorem furnish_eq (r : Recording) (b : Int × Int) :
    r.furnish { beginTick := b.1, endTick := b.2 } = .ok (r.emptySlice b) := by
  refine bind_eq_ok.mpr ⟨_, foldlM_addCommand rfl _, ?_⟩
  have hcommands : (r.commandsAt b.1).entries.foldl (fun t e => t.insert e.1 e.2) .empty =
      r.commandsAt b.1 := Table.ofList_entries _
  simp only [hcommands]
  rfl

/-! ### Looking up -/

/-- Where a tick belongs depends on the bounds of slices only. -/
theorem ownerIndex_eq {slices : List Slice} (hbounds : slices.map Slice.bounds = r.bounds)
    (tick : Int) : Slice.ownerIndex slices tick = r.owner tick := by
  have hfind (l : List Slice) : l.findIdx? (fun s => s.contains tick) =
      (l.map Slice.bounds).findIdx? (fun b => b.1 ≤ tick ∧ tick < b.2) := by
    rw [List.findIdx?_map]
    rfl
  have hlength : slices.length = r.emptySlices.length := by
    rw [length_emptySlices, ← hbounds, List.length_map]
  rw [owner, Slice.ownerIndex, Slice.ownerIndex, hfind, hfind, hbounds, map_bounds_emptySlices,
    hlength]

/-- Whether a tick lies in some slice depends on the bounds of slices only. -/
theorem anyContains_eq {slices : List Slice} (hbounds : slices.map Slice.bounds = r.bounds)
    (tick : Int) : Slice.anyContains slices tick = Slice.anyContains r.emptySlices tick := by
  have hany (l : List Slice) : Slice.anyContains l tick =
      (l.map Slice.bounds).any (fun b => b.1 ≤ tick ∧ tick < b.2) := by
    rw [List.any_map]
    rfl
  rw [hany, hany, hbounds, map_bounds_emptySlices]

/-- A slice can always be looked up. -/
theorem lookup_eq {slices : List Slice} (hbounds : slices.map Slice.bounds = r.bounds)
    (tick : Int) : Slice.lookup slices tick = .ok (r.owner tick,
      if Slice.anyContains r.emptySlices tick then [] else [Slice.missWarning tick]) := by
  have hne : slices.isEmpty = false := by
    have hpos := r.bounds_length_pos
    rw [← hbounds, List.length_map] at hpos
    exact List.isEmpty_eq_false_iff.mpr (List.ne_nil_of_length_pos hpos)
  rw [Slice.lookup, hne, ownerIndex_eq hbounds, anyContains_eq hbounds]
  rfl

/-! ### Putting -/

/-- An entry changes nothing about the bounds of a slice. -/
theorem bounds_put {e : Entry} {s s' : Slice} (hok : e.put s = .ok s') : s'.bounds = s.bounds := by
  have halter {tick channel : Int} {f : Event → Event}
      (hok : s.alterEvent tick channel f = .ok s') : s'.bounds = s.bounds := by
    obtain ⟨_, _, hok⟩ := bind_eq_ok.mp hok
    obtain ⟨lane, _, hok⟩ := bind_eq_ok.mp hok
    cases hok
    rfl
  unfold Entry.put at hok
  split at hok
  · exact halter hok
  · exact halter hok

/-- Putting an entry into one of some slices changes nothing about their bounds. -/
theorem map_bounds_set {e : Entry} {slices : List Slice} {i : Nat} {s t : Slice}
    (hget : slices[i]? = some s) (hput : e.put s = .ok t) :
    (slices.set i t).map Slice.bounds = slices.map Slice.bounds := by
  obtain ⟨hi, rfl⟩ := List.getElem?_eq_some_iff.mp hget
  rw [List.map_set, bounds_put hput, ← List.getElem_map Slice.bounds]
  · exact List.set_getElem_self _
  · rwa [List.length_map]

/-- The warning of looking up the slice of an entry. -/
def missed (r : Recording) (e : Entry) : List Warning :=
  if Slice.anyContains r.emptySlices e.tick then [] else [Slice.missWarning e.tick]

/-- Putting entries where they belong succeeds if every slice takes the entries that belong to it,
one after the other. -/
theorem foldlM_put (entries : List Entry) {slices slices' : List Slice} (warnings : List Warning)
    (hbounds : slices.map Slice.bounds = r.bounds) (hlength : slices'.length = slices.length)
    (hputs : ∀ i s, slices[i]? = some s → ∃ s', slices'[i]? = some s' ∧
      (entries.filter (fun e => r.owner e.tick = i)).foldlM (fun s e => e.put s) s = .ok s') :
    entries.foldlM Cut.put { slices, warnings } =
      .ok { slices := slices', warnings := warnings ++ entries.flatMap r.missed } := by
  induction entries generalizing slices warnings with
  | nil =>
    have hsame : slices' = slices := by
      refine List.ext_getElem? (fun i => ?_)
      cases hget : slices[i]? with
      | none => exact List.getElem?_eq_none (hlength ▸ List.getElem?_eq_none_iff.mp hget)
      | some s =>
        obtain ⟨s', hs', hok⟩ := hputs i s hget
        cases hok
        exact hs'
    simp [hsame, pure, Except.pure]
  | cons e rest ih =>
    have howner : r.owner e.tick < slices.length := by
      have := r.owner_lt e.tick
      rwa [← hbounds, List.length_map] at this
    have hget := List.getElem?_eq_getElem howner
    obtain ⟨s', hs', hok⟩ := hputs _ _ hget
    rw [List.filter_cons_of_pos (by simp), List.foldlM_cons] at hok
    obtain ⟨t, hput, hrest⟩ := bind_eq_ok.mp hok
    have hfirst : Cut.put { slices, warnings } e = .ok { slices := slices.set (r.owner e.tick) t
                                                         warnings := warnings ++ r.missed e } := by
      refine bind_eq_ok.mpr ⟨_, lookup_eq hbounds e.tick, ?_⟩
      simp only [hget]
      exact bind_eq_ok.mpr ⟨t, hput, rfl⟩
    have hset : (slices.set (r.owner e.tick) t).map Slice.bounds = r.bounds :=
      (map_bounds_set hget hput).trans hbounds
    rw [List.foldlM_cons, hfirst]
    refine (ih (warnings ++ r.missed e) hset (by rw [List.length_set, hlength])
      (fun i s hs => ?_)).trans ?_
    · rw [List.getElem?_set] at hs
      split at hs
      · rename_i heq
        subst heq
        cases hs
        exact ⟨s', hs', hrest⟩
      · rename_i hne
        obtain ⟨s₁, hs₁, hok₁⟩ := hputs i s hs
        rw [List.filter_cons_of_neg (by simpa using hne)] at hok₁
        exact ⟨s₁, hs₁, hok₁⟩
    · rw [List.flatMap_cons, List.append_assoc]

/-- Putting entries adds the warnings of their look-ups, whatever slices are filled. -/
theorem warnings_foldlM_put {entries : List Entry} {c c' : Cut}
    (hbounds : c.slices.map Slice.bounds = r.bounds) (hok : entries.foldlM Cut.put c = .ok c') :
    c'.warnings = c.warnings ++ entries.flatMap r.missed := by
  induction entries generalizing c with
  | nil =>
    cases hok
    rw [List.flatMap_nil, List.append_nil]
  | cons e rest ih =>
    rw [List.foldlM_cons] at hok
    obtain ⟨c₁, hfirst, hrest⟩ := bind_eq_ok.mp hok
    obtain ⟨found, hlookup, hfirst⟩ := bind_eq_ok.mp hfirst
    rw [lookup_eq hbounds, Except.ok.injEq] at hlookup
    subst hlookup
    cases hget : c.slices[r.owner e.tick]? with
    | none =>
      simp only [hget] at hfirst
      cases hfirst
    | some s =>
      simp only [hget] at hfirst
      obtain ⟨t, hput, hfirst⟩ := bind_eq_ok.mp hfirst
      cases hfirst
      rw [ih ((map_bounds_set hget hput).trans hbounds) hrest, List.flatMap_cons,
        List.append_assoc]
      rfl

/-- Filling a slice puts the entries that belong to it. -/
theorem foldlM_addChannel_eq (r : Recording) (belongs : Int → Bool) (s : Slice) :
    r.channels.foldlM (r.addChannel belongs) s =
      (r.entries.filter (fun e => belongs e.tick)).foldlM (fun s e => e.put s) s := by
  have hchannel (c : Int) (s : Slice) : r.addChannel belongs s c =
      (((r.strikesOn c).entries.map (fun e => Entry.mk c e.1 (some e.2)) ++
        (r.playedChanges c).map (fun tick => Entry.mk c tick none)).filter
          (fun e => belongs e.tick)).foldlM (fun s e => e.put s) s := by
    simp only [List.filter_append, List.filter_map, List.foldlM_append, List.foldlM_map]
    rfl
  rw [entries]
  induction r.channels generalizing s with
  | nil => rfl
  | cons c rest ih =>
    rw [List.flatMap_cons, List.filter_append, List.foldlM_append, List.foldlM_cons, hchannel]
    exact bind_congr ih

/-- Cutting warns of nothing but ticks in no slice. -/
theorem kind_of_mem_cutWarnings {w : Warning} (hw : w ∈ r.cutWarnings) : w.kind = .sliceLookup := by
  obtain ⟨tick, _, rfl⟩ := List.mem_map.mp hw
  rfl

/-- The warnings of cutting are those of looking up every entry. -/
theorem flatMap_missed (r : Recording) : r.entries.flatMap r.missed = r.cutWarnings := by
  have hticks : r.entries.map Entry.tick = r.channels.flatMap r.lookupTicks := by
    rw [entries, List.map_flatMap]
    refine List.flatMap_congr (fun c _ => ?_)
    rw [List.map_append, List.map_map, List.map_map, lookupTicks]
    congr 1
    exact List.map_id _
  rw [cutWarnings, ← hticks, List.filter_map, List.map_map]
  induction r.entries with
  | nil => rfl
  | cons e rest ih =>
    rw [List.flatMap_cons, ih, missed]
    by_cases hin : Slice.anyContains r.emptySlices e.tick = true
    · simp [hin]
    · simp [hin]

/-- Opened slices take their commands and their excerpts. -/
theorem mapM_furnish_eq (r : Recording) :
    (r.bounds.map (fun b => ({ beginTick := b.1, endTick := b.2 } : Slice))).mapM r.furnish =
      .ok r.emptySlices := by
  rw [List.mapM_map]
  exact mapM_eq_ok (fun b _ => r.furnish_eq b)

/-- Cutting with every step checked gives the slices, if there are any. -/
theorem cut_eq {slices : List Slice} (hok : r.slices = .ok slices) :
    r.cut = .ok { slices, warnings := r.cutWarnings } := by
  obtain ⟨filled, hfilled, rfl⟩ := mapM_bind_pure (f := fun s : Slice × Nat =>
    r.channels.foldlM (r.addChannel (fun tick => r.owner tick = s.2)) s.1) hok
  obtain ⟨hlength, hget⟩ := getElem?_of_mapM hfilled
  have hput := r.foldlM_put r.entries [] r.map_bounds_emptySlices
    (by rw [hlength, List.length_zipIdx]) (fun i s hs => by
      obtain ⟨s', hs', hfold⟩ := hget i (s, i) (by rw [List.getElem?_zipIdx, hs]; simp)
      exact ⟨s', hs', (r.foldlM_addChannel_eq _ s).symm.trans hfold⟩)
  rw [List.nil_append, flatMap_missed] at hput
  refine bind_eq_ok.mpr ⟨_, r.openSlices_eq, ?_⟩
  refine bind_eq_ok.mpr ⟨_, r.mapM_furnish_eq, ?_⟩
  exact bind_eq_ok.mpr ⟨_, hput, rfl⟩

/-- Whenever cutting succeeds, its warnings are those of all look-ups. -/
theorem warnings_of_cut {c : Cut} (hok : r.cut = .ok c) : c.warnings = r.cutWarnings := by
  obtain ⟨opened, hopen, hok⟩ := bind_eq_ok.mp hok
  obtain ⟨furnished, hfurnish, hok⟩ := bind_eq_ok.mp hok
  obtain ⟨filled, hput, hok⟩ := bind_eq_ok.mp hok
  cases hok
  rw [openSlices_eq, Except.ok.injEq] at hopen
  subst hopen
  rw [mapM_furnish_eq, Except.ok.injEq] at hfurnish
  subst hfurnish
  rw [warnings_foldlM_put r.map_bounds_emptySlices hput, flatMap_missed]
  rfl

end Recording

end Transcription
