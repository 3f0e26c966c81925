import Transcription.Proofs.Slice.Filling

/-!
# The bounds of slices

The slices of a recording follow one another without gaps from the start of the sequence. So every
tick before the end lies in exactly one of them, later ticks belong to later slices, and a slice
that is not the last one ends at a tick with global commands.
-/

namespace Transcription

/-- The begin and the end of a slice. -/
def Slice.bounds (s : Slice) : Int × Int := (s.beginTick, s.endTick)

/-- Bounds that follow one another without gaps from a tick on, each of them with some room. -/
def Contiguous : Int → List (Int × Int) → Prop
  | _, [] => True
  | first, b :: rest => b.1 = first ∧ first < b.2 ∧ Contiguous b.2 rest

namespace Contiguous

variable {first : Int} {l : List (Int × Int)}

/-- No bounds begin before the first ones. -/
theorem first_le (h : Contiguous first l) {b : Int × Int} (hb : b ∈ l) :
    first ≤ b.1 ∧ b.1 < b.2 := by
  induction l generalizing first with
  | nil => simp at hb
  | cons a rest ih =>
    obtain ⟨hbegin, hlt, hrest⟩ := h
    rcases List.mem_cons.mp hb with rfl | hb
    · omega
    · have := ih hrest hb
      omega

/-- Bounds end where the next ones begin, and not after any later ones. -/
theorem pairwise (h : Contiguous first l) :
    l.Pairwise (fun a b => a.2 ≤ b.1 ∧ ∃ c ∈ l, c.1 = a.2) := by
  induction l generalizing first with
  | nil => exact .nil
  | cons a rest ih =>
    obtain ⟨hbegin, hlt, hrest⟩ := h
    refine List.pairwise_cons.mpr ⟨fun b hb => ⟨(hrest.first_le hb).1, ?_⟩, ?_⟩
    · cases rest with
      | nil => simp at hb
      | cons c rest => exact ⟨c, by simp, hrest.1⟩
    · refine (ih hrest).imp ?_
      rintro b c ⟨hle, d, hd, heq⟩
      exact ⟨hle, d, List.mem_cons_of_mem _ hd, heq⟩

/-- A tick between the first begin and some end lies within some of the bounds up to these. -/
theorem exists_contains (h : Contiguous first l) {tick : Int} (hfirst : first ≤ tick) {i : Nat}
    (hi : i < l.length) (hend : tick < l[i].2) :
    ∃ j, ∃ hj : j < l.length, j ≤ i ∧ l[j].1 ≤ tick ∧ tick < l[j].2 := by
  induction l generalizing first i with
  | nil => simp at hi
  | cons a rest ih =>
    obtain ⟨hbegin, hlt, hrest⟩ := h
    by_cases hin : tick < a.2
    · exact ⟨0, by simp, Nat.zero_le _, by simpa using by omega, by simpa using hin⟩
    · cases i with
      | zero => exact absurd hend hin
      | succ i =>
        obtain ⟨j, hj, hle, hcontains⟩ :=
          ih hrest (show a.2 ≤ tick by omega) (by simpa using hi) (by simpa using hend)
        exact ⟨j + 1, by simpa using hj, by omega, by simpa using hcontains⟩

end Contiguous

namespace Recording

variable {r : Recording}

/-- The place of the slice that a tick belongs to. -/
def owner (r : Recording) (tick : Int) : Nat := Slice.ownerIndex r.emptySlices tick

private theorem contiguous_zip {b e : Int} {rest : List Int} (h : (b :: rest).Pairwise (· < ·))
    (hend : (b :: rest).getLast?.getD 0 < e) : Contiguous b ((b :: rest).zip (rest ++ [e])) := by
  induction rest generalizing b with
  | nil => exact ⟨rfl, by simpa using hend, trivial⟩
  | cons c rest ih =>
    rw [List.pairwise_cons] at h
    refine ⟨rfl, h.1 c List.mem_cons_self, ih h.2 ?_⟩
    rw [List.getLast?_cons_cons] at hend
    exact hend

/-- The begins of slices ascend. -/
theorem boundaries_pairwise (r : Recording) : r.boundaries.Pairwise (· < ·) := by
  apply List.pairwise_cons.mpr
  constructor
  · intro tick htick
    simpa using (List.mem_filter.mp htick).2
  · have hglobals : r.globalTicks.Pairwise (· < ·) :=
      List.pairwise_map.mpr (r.globals.ascending.filter _)
    exact hglobals.filter _

/-- The bounds of slices follow one another without gaps from the start of the sequence. -/
theorem contiguous_bounds (r : Recording) : Contiguous 0 r.bounds := by
  have hend : r.boundaries.getLast?.getD 0 < r.sliceEnd := by
    unfold sliceEnd
    omega
  exact contiguous_zip r.boundaries_pairwise hend

/-- The begins of the bounds are the boundaries. -/
theorem map_fst_bounds (r : Recording) : r.bounds.map Prod.fst = r.boundaries := by
  rw [bounds, List.map_fst_zip]
  simp [boundaries]

/-- Earlier bounds end before later ones begin, at a boundary. -/
theorem bounds_of_lt {i j : Nat} {a b : Int × Int} (ha : r.bounds[i]? = some a)
    (hb : r.bounds[j]? = some b) (hlt : i < j) : a.2 ≤ b.1 ∧ a.2 ∈ r.boundaries := by
  obtain ⟨hi, rfl⟩ := List.getElem?_eq_some_iff.mp ha
  obtain ⟨hj, rfl⟩ := List.getElem?_eq_some_iff.mp hb
  obtain ⟨hle, c, hc, heq⟩ :=
    List.pairwise_iff_getElem.mp r.contiguous_bounds.pairwise i j hi hj hlt
  refine ⟨hle, ?_⟩
  rw [← map_fst_bounds, ← heq]
  exact List.mem_map.mpr ⟨c, hc, rfl⟩

/-- The empty slices have the bounds of a recording. -/
theorem map_bounds_emptySlices (r : Recording) : r.emptySlices.map Slice.bounds = r.bounds := by
  rw [emptySlices, List.map_map]
  exact List.map_id _

/-- There is a slice for each pair of bounds. -/
theorem length_emptySlices (r : Recording) : r.emptySlices.length = r.bounds.length := by
  rw [emptySlices, List.length_map]

/-- There is at least one slice. -/
theorem bounds_length_pos (r : Recording) : 0 < r.bounds.length := by
  simp [bounds, boundaries]

private theorem emptySlice_contains {i : Nat} (hi : i < r.emptySlices.length)
    (hi' : i < r.bounds.length) (tick : Int) :
    r.emptySlices[i].contains tick = true ↔ r.bounds[i].1 ≤ tick ∧ tick < r.bounds[i].2 := by
  have hslice : r.emptySlices[i] = r.emptySlice r.bounds[i] := List.getElem_map _
  simp [hslice, Slice.contains, emptySlice]

/-- A tick belongs to one of the slices. -/
theorem owner_lt (r : Recording) (tick : Int) : r.owner tick < r.bounds.length := by
  have hpos := r.bounds_length_pos
  have hlength := r.length_emptySlices
  unfold owner Slice.ownerIndex
  cases hfound : r.emptySlices.findIdx? (fun s => s.contains tick) with
  | none => simp only [Option.getD_none]; omega
  | some i =>
    obtain ⟨hi, _⟩ := List.findIdx?_eq_some_iff_getElem.mp hfound
    simp only [Option.getD_some]
    omega

/-- A tick that lies in some slice belongs to the first slice in which it lies. -/
theorem owner_contains {tick : Int} {i : Nat} (hi : i < r.bounds.length)
    (hin : r.bounds[i].1 ≤ tick ∧ tick < r.bounds[i].2) :
    r.owner tick ≤ i ∧ ∃ h : r.owner tick < r.bounds.length,
      r.bounds[r.owner tick].1 ≤ tick ∧ tick < r.bounds[r.owner tick].2 := by
  have hlength := r.length_emptySlices
  cases hfound : r.emptySlices.findIdx? (fun s => s.contains tick) with
  | none =>
    have hnone := List.findIdx?_eq_none_iff.mp hfound r.emptySlices[i] (List.getElem_mem _)
    rw [(emptySlice_contains (by omega) hi tick).mpr hin] at hnone
    exact absurd hnone (by decide)
  | some j =>
    obtain ⟨hj, hcontains, hfirst⟩ := List.findIdx?_eq_some_iff_getElem.mp hfound
    have howner : r.owner tick = j := by simp [owner, Slice.ownerIndex, hfound]
    subst howner
    have hle : r.owner tick ≤ i := by
      by_contra hlt
      have hi' : i < r.emptySlices.length := by omega
      exact hfirst i (by omega) ((emptySlice_contains hi' hi tick).mpr hin)
    exact ⟨hle, r.owner_lt tick, (emptySlice_contains hj _ tick).mp hcontains⟩

/-- Later ticks belong to later slices. -/
theorem owner_mono {tick tick' : Int} (hstart : 0 ≤ tick) (hle : tick ≤ tick') :
    r.owner tick ≤ r.owner tick' := by
  have hlength := r.length_emptySlices
  have hbound := r.owner_lt tick
  cases hfound : r.emptySlices.findIdx? (fun s => s.contains tick') with
  | none =>
    have howner : r.owner tick' = r.emptySlices.length - 1 := by
      simp [owner, Slice.ownerIndex, hfound]
    omega
  | some j =>
    obtain ⟨hj, hcontains, _⟩ := List.findIdx?_eq_some_iff_getElem.mp hfound
    have howner : r.owner tick' = j := by simp [owner, Slice.ownerIndex, hfound]
    have hin := (emptySlice_contains hj (by omega) tick').mp hcontains
    obtain ⟨k, hk, hkj, hcontains⟩ := r.contiguous_bounds.exists_contains hstart
      (show j < r.bounds.length by omega) (show tick < r.bounds[j].2 by omega)
    have := (owner_contains hk hcontains).1
    omega

/-- The last slice ends at the end of the slices. -/
theorem last_bounds (r : Recording) (h : r.bounds.length - 1 < r.bounds.length) :
    r.bounds[r.bounds.length - 1].2 = r.sliceEnd := by
  have hlength : r.bounds.length = r.boundaries.length := by
    rw [← map_fst_bounds, List.length_map]
  have hends : r.bounds.length - 1 < (r.boundaries.drop 1 ++ [r.sliceEnd]).length := by
    simp only [List.length_append, List.length_drop, List.length_singleton]
    omega
  have hlast : r.bounds[r.bounds.length - 1].2 =
      (r.boundaries.drop 1 ++ [r.sliceEnd])[r.bounds.length - 1] := by
    simp only [bounds, List.getElem_zip]
  rw [hlast, List.getElem_append_right (by rw [List.length_drop]; omega)]
  simp

/-- A tick before the end of the last slice lies in the slice that it belongs to. -/
theorem mem_owner_of_lt_sliceEnd {tick : Int} (hstart : 0 ≤ tick) (hend : tick < r.sliceEnd) :
    ∃ h : r.owner tick < r.bounds.length,
      r.bounds[r.owner tick].1 ≤ tick ∧ tick < r.bounds[r.owner tick].2 := by
  have hpos := r.bounds_length_pos
  have hlast := r.last_bounds (by omega)
  obtain ⟨i, hi, _, hin⟩ := r.contiguous_bounds.exists_contains hstart
    (show r.bounds.length - 1 < r.bounds.length by omega) (by omega)
  exact (owner_contains hi hin).2

/-- A tick before the end of the sequence lies in the slice that it belongs to. -/
theorem mem_owner {tick : Int} (hstart : 0 ≤ tick) (hend : tick < r.lastTick) :
    ∃ h : r.owner tick < r.bounds.length,
      r.bounds[r.owner tick].1 ≤ tick ∧ tick < r.bounds[r.owner tick].2 := by
  apply mem_owner_of_lt_sliceEnd hstart
  unfold sliceEnd
  omega

/-! ### The slices of a recording -/

/-- A filled slice has the bounds of the slice that was filled. -/
theorem bounds_filled (r : Recording) (belongs : Int → Bool) (s : Slice) :
    (r.filled belongs s).bounds = s.bounds := by
  simp only [Slice.bounds, filled]

/-- A slice with the bounds of its place among the slices of a recording, and with all the events
that belong there. -/
structure HasSlice (r : Recording) (i : Nat) (s : Slice) : Prop where
  bounds : r.bounds[i]? = some s.bounds
  timeline : ∀ lane : Channel, s.timelines.get lane =
    r.timelineIn (fun tick => r.owner tick = i) s lane.val

namespace HasSlice

variable {i : Nat} {s : Slice}

/-- The ticks of a timeline ascend. -/
theorem timeline_pairwise (h : r.HasSlice i s) (lane : Channel) :
    (s.timelines.get lane).Pairwise (fun a b => a.1 < b.1) := by
  rw [h.timeline lane]
  exact Timeline.sorted_pairwise _

/-- A slice has an event at a tick if the tick belongs to it and something happens there. -/
theorem mem_timeline (h : r.HasSlice i s) {lane : Channel} {tick : Int} {e : Event} :
    (tick, e) ∈ s.timelines.get lane ↔
      r.owner tick = i ∧ r.eventAt s lane.val tick = some e := by
  rw [h.timeline lane, mem_timelineIn, decide_eq_true_eq]

/-- A slice begins where its bounds begin, at a boundary. -/
theorem bounds_mem (h : r.HasSlice i s) : s.bounds ∈ r.bounds := List.mem_of_getElem? h.bounds

end HasSlice

/-- Slices with the bounds of a recording, each of them with the timelines that belong there. -/
structure HasSlices (r : Recording) (slices : List Slice) : Prop where
  bounds : slices.map Slice.bounds = r.bounds
  hasSlice : ∀ s ∈ slices.zipIdx, r.HasSlice s.2 s.1

/-- Every one of the slices has its place among them. -/
theorem HasSlices.exists_place {slices : List Slice} (h : r.HasSlices slices) {s : Slice}
    (hs : s ∈ slices) : ∃ i, slices[i]? = some s ∧ r.HasSlice i s := by
  obtain ⟨i, hget⟩ := List.mem_iff_getElem?.mp hs
  exact ⟨i, hget, h.hasSlice (s, i) (List.mk_mem_zipIdx_iff_getElem?.mpr hget)⟩

/-- A well-formed recording is cut into its slices. -/
theorem exists_slices (hrep : r.WellFormed) :
    ∃ slices, r.slices = .ok slices ∧ r.HasSlices slices := by
  refine ⟨_, slices_eq (fun _ => hrep.channels), ?_, ?_⟩
  · rw [← map_bounds_emptySlices, List.map_map]
    rw [← List.zipIdx_map_fst 0 r.emptySlices, List.map_map, List.zipIdx_map_fst]
    exact List.map_congr_left (fun s _ => bounds_filled r _ s.1)
  · rintro ⟨s, i⟩ hs
    rw [List.mem_zipIdx_iff_getElem?, List.getElem?_map, List.getElem?_zipIdx,
      Option.map_map] at hs
    obtain ⟨e, he, hs⟩ := Option.map_eq_some_iff.mp hs
    simp only [Function.comp_apply, Nat.zero_add] at hs
    subst hs
    constructor
    · rw [← map_bounds_emptySlices, List.getElem?_map, he, bounds_filled]
      rfl
    · intro lane
      rw [timelineIn_filled]
      exact get_filled r _ e lane

end Recording

end Transcription
