import Transcription.Proofs.Recording.Presses
import Transcription.Proofs.Slice.Exact

/-!
# What slices answer without the recording

A slice keeps the strikes inside it and the presses inside it, with one more press after its end
where a pitch is still held. That is enough: whatever is asked about a note that is struck inside
the slice has the same answer as in the whole recording.
-/

namespace Transcription

/-! ### The first key after a key -/

/-- The first key after a key is the smallest of all that lie after it. -/
theorem Table.firstAfter?_eq_min? {α : Type} (t : Table Int α) (k : Int) :
    t.firstAfter? k = (t.keys.filter (fun k' => k < k')).min? := by
  have hsorted : (t.keys.filter (fun k' => k < k')).Pairwise (fun a b => min a b = a) := by
    apply (t.keys_pairwise.filter _).imp
    intro a b hab
    omega
  rw [List.min?_eq_head? hsorted, Table.firstAfter?, List.head?_filter]

/-- The first key after a key is that of the first entry after it. -/
theorem Table.firstAfter?_eq_find? {α : Type} (t : Table Int α) (k : Int) :
    t.firstAfter? k = (t.entries.find? (fun e => k < e.1)).map Prod.fst := by
  rw [Table.firstAfter?, Table.keys, List.find?_map]
  rfl

/-! ### Taking an excerpt -/

namespace Slice

variable {first last : Int} {pressed : Bool} {l : List (Int × Bool)}

/-- While a pitch is pressed, an excerpt begins like all that lies in it and after it. -/
theorem head?_excerptAlong (h : ∀ e ∈ l, first ≤ e.1) :
    (excerptAlong first last true l).head? = l.head? := by
  cases l with
  | nil => rfl
  | cons e rest =>
    have hfirst := h e List.mem_cons_self
    rw [excerptAlong, if_neg (by omega)]
    split
    · rfl
    · rfl

/-- After a press inside its range, an excerpt has the same next entry as the whole. -/
theorem find?_excerptAlong (h : l.Pairwise (fun a b => a.1 < b.1)) {tick : Int}
    (hmem : (tick, true) ∈ l) (hfirst : first ≤ tick) (hlast : tick < last) :
    (excerptAlong first last pressed l).find? (fun e => tick < e.1) =
      l.find? (fun e => tick < e.1) := by
  induction l generalizing pressed with
  | nil => simp at hmem
  | cons e rest ih =>
    rw [List.pairwise_cons] at h
    rcases List.mem_cons.mp hmem with rfl | hmem
    · -- The press itself is kept, and what follows it is known to follow a press.
      have hafter : ∀ e ∈ rest, tick < e.1 := h.1
      have hkept : ∀ e ∈ excerptAlong first last true rest, tick < e.1 := fun e he =>
        hafter e ((excerptAlong_sublist first last true rest).subset he)
      have hhead : (excerptAlong first last true rest).head? = rest.head? := by
        apply head?_excerptAlong
        intro e he
        have := hafter e he
        omega
      rw [excerptAlong, if_neg (by omega), if_pos hlast, List.find?_cons_of_neg (by simp),
        List.find?_cons_of_neg (by simp), ← List.head?_filter, ← List.head?_filter,
        List.filter_eq_self.mpr (by simpa using hkept),
        List.filter_eq_self.mpr (by simpa using hafter)]
      exact hhead
    · have hbefore : e.1 < tick := h.1 _ hmem
      rw [excerptAlong, List.find?_cons_of_neg (by simpa using by omega)]
      split
      · exact ih h.2 hmem
      · rw [if_pos (by omega), List.find?_cons_of_neg (by simpa using by omega)]
        exact ih h.2 hmem

/-- An excerpt is what lies in its range, and the first entry after it if the pitch is still
pressed. -/
theorem excerptAlong_eq (h : l.Pairwise (fun a b => a.1 < b.1)) (hrange : first < last) :
    excerptAlong first last pressed l =
      l.filter (fun e => first ≤ e.1 ∧ e.1 < last) ++
        if ((l.filter (fun e => first ≤ e.1 ∧ e.1 < last)).getLast?.map Prod.snd).getD pressed then
          (l.find? (fun e => last ≤ e.1)).toList
        else [] := by
  induction l generalizing pressed with
  | nil => simp [excerptAlong]
  | cons e rest ih =>
    rw [List.pairwise_cons] at h
    rw [excerptAlong]
    split
    case isTrue hbefore =>
      rw [ih h.2, List.filter_cons_of_neg (by simpa using by omega),
        List.find?_cons_of_neg (by simpa using by omega)]
    case isFalse hbefore =>
      split
      case isTrue hinside =>
        rw [ih h.2, List.filter_cons_of_pos (by simpa using by omega),
          List.find?_cons_of_neg (by simpa using by omega), List.getLast?_cons, List.cons_append]
        cases (rest.filter (fun e => first ≤ e.1 ∧ e.1 < last)).getLast? with
        | none => rfl
        | some e' => rfl
      case isFalse hafter =>
        have hnone : (e :: rest).filter (fun e => first ≤ e.1 ∧ e.1 < last) = [] := by
          rw [List.filter_eq_nil_iff]
          intro e' he'
          rcases List.mem_cons.mp he' with rfl | he'
          · simpa using by omega
          · have := h.1 e' he'
            simpa using by omega
        rw [hnone, List.find?_cons_of_pos (by simpa using by omega)]
        cases pressed with
        | true => rfl
        | false => rfl

/-- The entries of an excerpt that lie before the end of its range are those of the whole. -/
theorem filter_excerptAlong_before (h : l.Pairwise (fun a b => a.1 < b.1)) (hrange : first < last) :
    (excerptAlong first last pressed l).filter (fun e => e.1 < last) =
      l.filter (fun e => first ≤ e.1 ∧ e.1 < last) := by
  rw [excerptAlong_eq h hrange, List.filter_append]
  have hinside : (l.filter (fun e => first ≤ e.1 ∧ e.1 < last)).filter (fun e => e.1 < last) =
      l.filter (fun e => first ≤ e.1 ∧ e.1 < last) := by
    rw [List.filter_eq_self]
    intro e he
    simpa using (of_decide_eq_true (List.mem_filter.mp he).2).2
  have hafter : ((l.find? (fun e => last ≤ e.1)).toList).filter (fun e => e.1 < last) = [] := by
    rw [List.filter_eq_nil_iff]
    intro e he
    simpa using List.find?_some (Option.mem_toList.mp he)
  rw [hinside]
  split
  · rw [hafter, List.append_nil]
  · exact List.append_nil _

/-- Of the entries from the end of its range on, an excerpt keeps the first one if the pitch is
still pressed. -/
theorem filter_excerptAlong_after (h : l.Pairwise (fun a b => a.1 < b.1)) (hrange : first < last) :
    (excerptAlong first last pressed l).filter (fun e => last ≤ e.1) =
      if ((l.filter (fun e => first ≤ e.1 ∧ e.1 < last)).getLast?.map Prod.snd).getD pressed then
        (l.find? (fun e => last ≤ e.1)).toList
      else [] := by
  have hinside : (l.filter (fun e => first ≤ e.1 ∧ e.1 < last)).filter (fun e => last ≤ e.1) =
      [] := by
    rw [List.filter_eq_nil_iff]
    intro e he
    simpa using (of_decide_eq_true (List.mem_filter.mp he).2).2
  have hafter : ((l.find? (fun e => last ≤ e.1)).toList).filter (fun e => last ≤ e.1) =
      (l.find? (fun e => last ≤ e.1)).toList := by
    rw [List.filter_eq_self]
    intro e he
    simpa using List.find?_some (Option.mem_toList.mp he)
  rw [excerptAlong_eq h hrange, List.filter_append, hinside, List.nil_append]
  split
  · exact hafter
  · rfl

/-! ### What a slice keeps -/

/-- When a pitch is pressed and released on a channel, as the slice keeps it. -/
def pressesOf (s : Slice) (channel note : Int) : Presses :=
  (((s.presses.get? channel).getD .empty).get? note).getD .empty

/-- When a pitch that is pressed is released next is seen from its presses. -/
theorem offTick?_eq (s : Slice) (channel note tick : Int) :
    s.offTick? channel note tick = (s.pressesOf channel note).firstAfter? tick := by
  unfold offTick? pressesOf
  cases s.presses.get? channel with
  | none => rfl
  | some byNote =>
    cases hnote : byNote.get? note with
    | none => simp [hnote, Table.firstAfter?, Table.keys, Table.empty]
    | some byTick => simp [hnote]

end Slice

namespace Recording

variable {r : Recording} {s : Slice} {b : Int × Int} {belongs : Int → Bool}

/-- A slice keeps of each pitch an excerpt of its presses. -/
theorem pressesOf_filled (r : Recording) (belongs : Int → Bool) (b : Int × Int)
    (channel note : Int) : (r.filled belongs (r.emptySlice b)).pressesOf channel note =
      Slice.excerptPresses { beginTick := b.1, endTick := b.2 } (r.pressesOf channel note) := by
  have hpresses : (r.filled belongs (r.emptySlice b)).presses =
      Slice.excerptAllPresses { beginTick := b.1, endTick := b.2 } r.presses := rfl
  unfold Slice.pressesOf pressesOf
  rw [hpresses, Slice.excerptAllPresses, Table.get?_map]
  cases r.presses.get? channel with
  | none => rfl
  | some byNote =>
    simp only [Option.map_some, Option.getD_some, Table.get?_map]
    cases byNote.get? note with
    | none => rfl
    | some byTick => rfl

/-- The next strike of a slice is the first strike of the recording after a tick inside the slice.
-/
theorem nextStrike?_filled (r : Recording) (belongs : Int → Bool) (b : Int × Int)
    (channel tick : Int) : (r.filled belongs (r.emptySlice b)).nextStrike? channel tick =
      ((r.strikesOn channel).keys.filter (fun k => tick < k ∧ b.1 ≤ k ∧ k < b.2)).min? := by
  have hstrikes : (r.filled belongs (r.emptySlice b)).strikes =
      Slice.excerptStrikes { beginTick := b.1, endTick := b.2 } r.strikes := rfl
  unfold Slice.nextStrike? strikesOn
  rw [hstrikes, Slice.excerptStrikes, Table.get?_map]
  cases r.strikes.get? channel with
  | none => rfl
  | some byTick =>
    have hkeys (p : Int → Bool) : (byTick.filter (fun k _ => p k)).keys = byTick.keys.filter p := by
      rw [Table.keys, Table.filter, Table.keys, List.filter_map]
      rfl
    simp only [Option.map_some, Option.bind_some, Option.getD_some]
    rw [Table.firstAfter?_eq_min?, hkeys, List.filter_filter]
    congr 2
    funext k
    simp [Slice.contains]

/-- What a slice answers in place of the recording. -/
structure Answers (r : Recording) (s : Slice) : Prop where
  /-- A note that is struck inside the slice ends where its pitch is released or struck next, also
  if that is after the slice. -/
  off : ∀ channel note tick, note ∈ (r.struckAt channel tick).keys → s.contains tick = true →
    s.offTick? channel note tick =
      ((r.pressesOf channel note).keys.filter (fun t => tick < t)).min?
  /-- The presses inside the slice are kept. -/
  inside : ∀ channel note,
    (s.pressesOf channel note).entries.filter (fun e => e.1 < s.endTick) =
      (r.pressesOf channel note).entries.filter (fun e => s.contains e.1)
  /-- No more than one press from the end of the slice on is kept. -/
  single : ∀ channel note,
    ((s.pressesOf channel note).entries.filter (fun e => s.endTick ≤ e.1)).length ≤ 1
  /-- One is kept if the last press inside the slice is not released there and there is a later one,
  of which it is the first. -/
  carried : ∀ channel note e,
    e ∈ (s.pressesOf channel note).entries ∧ s.endTick ≤ e.1 ↔
      (∃ t, ((r.pressesOf channel note).entries.filter
        (fun e => s.contains e.1)).getLast? = some (t, true)) ∧
      (r.pressesOf channel note).entries.find? (fun e => s.endTick ≤ e.1) = some e
  /-- The next strike is the next one inside the slice. -/
  next : ∀ channel tick, s.nextStrike? channel tick =
    ((r.strikesOn channel).keys.filter (fun t => tick < t ∧ s.contains t)).min?

/-- Between two bounds a slice answers in place of a recording whose presses are its strikes. -/
theorem answers_filled (hmatch : r.PressesMatch) (belongs : Int → Bool) (hrange : b.1 < b.2) :
    r.Answers (r.filled belongs (r.emptySlice b)) := by
  have hcontains (t : Int) : (r.filled belongs (r.emptySlice b)).contains t =
      decide (b.1 ≤ t ∧ t < b.2) := rfl
  have hend : (r.filled belongs (r.emptySlice b)).endTick = b.2 := rfl
  have hkept (channel note : Int) :
      ((r.filled belongs (r.emptySlice b)).pressesOf channel note).entries =
        Slice.excerptAlong b.1 b.2 false (r.pressesOf channel note).entries := by
    rw [pressesOf_filled]
    rfl
  constructor
  case off =>
    intro channel note tick hstruck hinside
    rw [hcontains, decide_eq_true_eq] at hinside
    have hpressed : (tick, true) ∈ (r.pressesOf channel note).entries :=
      Table.mem_entries_iff.mpr ((hmatch channel note tick).mpr hstruck)
    rw [← Table.firstAfter?_eq_min?, Slice.offTick?_eq, Table.firstAfter?_eq_find?,
      Table.firstAfter?_eq_find?, hkept, Slice.find?_excerptAlong
        (r.pressesOf channel note).ascending hpressed hinside.1 hinside.2]
  case inside =>
    intro channel note
    have hsorted := (r.pressesOf channel note).ascending
    simp only [hend, hkept, hcontains, Slice.filter_excerptAlong_before hsorted hrange]
  case single =>
    intro channel note
    have hsorted := (r.pressesOf channel note).ascending
    rw [hend, hkept, Slice.filter_excerptAlong_after hsorted hrange]
    split
    · cases (r.pressesOf channel note).entries.find? (fun e => b.2 ≤ e.1) with
      | none => simp
      | some e => simp
    · simp
  case carried =>
    intro channel note e
    have hsorted := (r.pressesOf channel note).ascending
    have hmem : e ∈ ((r.filled belongs (r.emptySlice b)).pressesOf channel note).entries ∧
        b.2 ≤ e.1 ↔ e ∈ (Slice.excerptAlong b.1 b.2 false
          (r.pressesOf channel note).entries).filter (fun e => b.2 ≤ e.1) := by
      rw [hkept, List.mem_filter, decide_eq_true_eq]
    rw [hend, hmem, Slice.filter_excerptAlong_after hsorted hrange]
    simp only [hcontains]
    cases ((r.pressesOf channel note).entries.filter
      (fun e => decide (b.1 ≤ e.1 ∧ e.1 < b.2))).getLast? with
    | none => simp
    | some last =>
      obtain ⟨t, pressed⟩ := last
      cases pressed with
      | false => simp
      | true => simp
  case next =>
    intro channel tick
    simp only [nextStrike?_filled, hcontains, decide_eq_true_eq]

/-- **Slices answer like the recording.** Whatever is recorded on channels with lanes is cut into
slices, and each of them knows of every note that is struck inside it when its pitch is released or
struck next, and of every tick which strike inside it is the next one. -/
theorem slices_answer {source : Source} (hlanes : source.Allowed (fun c => 0 ≤ c ∧ c ≤ 15))
    (hrecord : source.record = .ok r) :
    ∃ slices, r.slices = .ok slices ∧ ∀ s ∈ slices, r.Answers s := by
  have hmade := source.made hlanes hrecord
  have hrange : ∀ c ∈ r.channels, 0 ≤ c ∧ c ≤ 15 := fun c hc => hmade.channels hc
  refine ⟨_, slices_eq hrange, fun s hs => ?_⟩
  obtain ⟨b, hb, belongs, rfl⟩ := exists_filled_of_range hrange (slices_eq hrange) hs
  exact answers_filled hmade.pressesMatch belongs (r.contiguous_bounds.first_le hb).2

/-- A note is held over the end of its slice, while it is struck again in the next one and while
another one is released exactly at the end. -/
theorem slices_answer_held :
    ∃ r slices, (Source.additions 480 none
        [.note 0 0 60 100 1200, .note 0 480 62 100 480, .command 960 tempoCommand "90",
          .note 0 1000 60 100 (-40), .command 2000 "volume" "7"]).record = .ok r ∧
      (r.pressesOf 0 60).entries = [(0, true), (960, false), (1000, true), (1200, false)] ∧
      r.slices = .ok slices ∧ ∀ s ∈ slices, r.Answers s := by
  obtain ⟨r, hrecord, hpresses⟩ := exists_eq_ok (show ((Source.additions 480 none
      [.note 0 0 60 100 1200, .note 0 480 62 100 480, .command 960 tempoCommand "90",
        .note 0 1000 60 100 (-40), .command 2000 "volume" "7"]).record).toOption.any
      (fun r => (r.pressesOf 0 60).entries =
        [(0, true), (960, false), (1000, true), (1200, false)]) = true by decide +kernel)
  have hlanes : (Source.additions 480 none
      [.note 0 0 60 100 1200, .note 0 480 62 100 480, .command 960 tempoCommand "90",
        .note 0 1000 60 100 (-40), .command 2000 "volume" "7"]).Allowed
      (fun c => 0 ≤ c ∧ c ≤ 15) := by
    simp [Source.Allowed, Addition.Allowed]
  obtain ⟨slices, hslices, hanswers⟩ := slices_answer hlanes hrecord
  exact ⟨r, slices, hrecord, of_decide_eq_true hpresses, hslices, hanswers⟩

end Recording

end Transcription
