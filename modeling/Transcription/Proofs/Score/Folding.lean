import Mathlib.Data.List.Chain
import Transcription.Proofs.Score.Groups

/-!
# What a division keeps of a timeline

A division lays the groups of a timeline end to end: every event is in one group, a group begins
with the event at its tick, and only events that bring notes, choose no program and lie less than
the shortest rest after this tick are folded into it. What is folded stays folded: the groups,
written back as one event each, are divided into themselves.
-/

namespace Transcription

namespace Group

variable {shortest : Int} {g h : Group} {timeline : Timeline}

/-- A group written back as one event: its tick, whether a program is chosen, and its notes. -/
def entry (g : Group) : Int × Event := (g.tick, { change := g.first.change, notes := some g.notes })

/-- The group of one event. -/
def single (e : Int × Event) : Group := ⟨e.1, e.2, []⟩

/-- A group that was written back is written back as before. -/
theorem entry_single_entry (g : Group) : (single g.entry).entry = g.entry := rfl

/-- What a folded event had to be: without a change of program and close to the begin. -/
theorem Joined.folded (hjoined : g.Joined shortest) {e : Int × Event} (he : e ∈ g.folded) :
    e.2.change = false ∧ e.1 - g.tick < shortest := by
  have hjoins := hjoined e he
  simp only [joins, Bool.not_eq_true', decide_eq_true_eq] at hjoins
  exact hjoins.2.2

/-- Two groups with notes, of which the later chooses no program, are a shortest rest apart if the
first event of the later does not join the earlier. -/
theorem Joined.apart (hg : g.Joined shortest) (hh : h.Joined shortest)
    (hjoins : joins shortest g (h.tick, h.first) = false) (hgnotes : g.notes.entries ≠ [])
    (hhnotes : h.notes.entries ≠ []) (hchange : h.first.change = false) :
    shortest ≤ h.tick - g.tick := by
  have hgfirst : g.first.struck.isEmpty = false := by
    rw [Bool.eq_false_iff, Ne, Table.isEmpty_iff, ← hg.notes_eq_nil_iff.1]
    exact hgnotes
  have hhfirst : h.first.struck.isEmpty = false := by
    rw [Bool.eq_false_iff, Ne, Table.isEmpty_iff, ← hh.notes_eq_nil_iff.1]
    exact hhnotes
  simpa [joins, hgfirst, hhfirst, hchange] using hjoins

/-- A group written back is joined by what joins the group. -/
theorem Joined.joins_entry (hg : g.Joined shortest) (hh : h.Joined shortest) :
    joins shortest (single g.entry) h.entry = joins shortest g (h.tick, h.first) := by
  have hgempty : g.notes.isEmpty = g.first.struck.isEmpty := by
    rw [Bool.eq_iff_iff, Table.isEmpty_iff, Table.isEmpty_iff]
    exact hg.notes_eq_nil_iff.1
  have hhempty : h.notes.isEmpty = h.first.struck.isEmpty := by
    rw [Bool.eq_iff_iff, Table.isEmpty_iff, Table.isEmpty_iff]
    exact hh.notes_eq_nil_iff.1
  have hgstruck : (single g.entry).first.struck = g.notes := rfl
  have hhstruck : h.entry.2.struck = h.notes := rfl
  rw [joins, joins, hgstruck, hhstruck, hgempty, hhempty]
  rfl

/-- Where no event joins the one before it, every event is a group. -/
theorem divide_eq_map_single (hchain : timeline.IsChain
    (fun a b => joins shortest (single a) b = false)) :
    divide shortest timeline = timeline.map single := by
  cases timeline with
  | nil => rfl
  | cons e rest =>
    change divideAfter shortest (single e) rest = single e :: rest.map single
    induction rest generalizing e with
    | nil => rfl
    | cons e' rest ih =>
      obtain ⟨hjoins, hrest⟩ := List.isChain_cons_cons.mp hchain
      rw [divideAfter, hjoins, if_neg Bool.false_ne_true]
      exact congrArg (single e :: ·) (ih e' hrest)

/-- The groups, written back as one event each, are divided into themselves. -/
theorem divide_entries (shortest : Int) (timeline : Timeline) :
    divide shortest ((divide shortest timeline).map entry) =
      (divide shortest timeline).map (fun g => single g.entry) := by
  obtain ⟨hjoined, hchain⟩ := divide_spec shortest timeline
  have hentries : ((divide shortest timeline).map entry).IsChain
      (fun a b => joins shortest (single a) b = false) := by
    rw [List.isChain_map]
    refine List.IsChain.imp_of_mem_imp (fun g h hg hh hjoins => ?_) hchain
    rw [(hjoined g hg).joins_entry (hjoined h hh)]
    exact hjoins
  rw [divide_eq_map_single hentries, List.map_map]
  rfl

/-- A list of groups divides a timeline as a strum is read. -/
structure Divides (shortest : Int) (timeline : Timeline) (groups : List Group) : Prop where
  /-- The groups begin at strictly ascending ticks. -/
  ascending : groups.Pairwise (fun g h => g.tick < h.tick)
  /-- The groups hold consecutive stretches of the timeline, one after the other. -/
  consecutive : groups.flatMap events = timeline
  /-- Every event is in exactly one group. -/
  unique : ∀ e ∈ timeline, ∃! g, g ∈ groups ∧ e ∈ g.events
  /-- A group begins with the event at its tick, and chooses a program as this event does. -/
  begins : ∀ g ∈ groups, ∃ event,
    g.events.head? = some (g.entry.1, event) ∧ g.entry.2.change = event.change
  /-- The other events of a group choose no program and follow within the shortest rest. -/
  folded : ∀ g ∈ groups, ∀ e ∈ g.events.tail,
    e.2.change = false ∧ g.entry.1 < e.1 ∧ e.1 - g.entry.1 < shortest
  /-- A group with notes that follows another one, and chooses no program, is a shortest rest
  away. -/
  apart : groups.IsChain (fun g h => g.notes.entries ≠ [] → h.notes.entries ≠ [] →
    h.entry.2.change = false → shortest ≤ h.entry.1 - g.entry.1)
  /-- The pitches of a group ascend, and are those of its events. -/
  pitches : ∀ g ∈ groups, g.notes.keys.Pairwise (· < ·) ∧
    ∀ pitch, pitch ∈ g.notes.keys ↔ ∃ e ∈ g.events, pitch ∈ e.2.struck.keys
  /-- Of several strikes of a pitch in a group the earliest counts. -/
  earliest : ∀ g ∈ groups, ∀ pitch note, g.notes.get? pitch = some note ↔
    ∃ before e after, g.events = before ++ e :: after ∧
      e.2.struck.get? pitch = some note ∧ ∀ e' ∈ before, pitch ∉ e'.2.struck.keys

/-- The pitches of a group are those of its events. -/
theorem mem_keys_notes {pitch : Int} :
    pitch ∈ g.notes.keys ↔ ∃ e ∈ g.events, pitch ∈ e.2.struck.keys := by
  simp only [Table.mem_keys_iff, ← Option.isSome_iff_exists, get?_notes, List.findSome?_isSome_iff]

/-- No event of an ascending timeline is in two groups. -/
theorem eq_of_mem_events (hsorted : timeline.Pairwise (fun a b => a.1 < b.1))
    (hg : g ∈ divide shortest timeline) (hh : h ∈ divide shortest timeline) {e : Int × Event}
    (heg : e ∈ g.events) (heh : e ∈ h.events) : g = h := by
  have hpairwise := List.pairwise_iff_getElem.mp (divide_pairwise shortest hsorted).2
  obtain ⟨i, hi, rfl⟩ := List.mem_iff_getElem.mp hg
  obtain ⟨j, hj, rfl⟩ := List.mem_iff_getElem.mp hh
  rcases Nat.lt_trichotomy i j with hlt | heq | hlt
  · exact absurd (hpairwise i j hi hj hlt e heg e heh) (Int.lt_irrefl _)
  · subst heq
    rfl
  · exact absurd (hpairwise j i hj hi hlt e heh e heg) (Int.lt_irrefl _)

/-- The groups of an ascending timeline divide it. -/
theorem divides_divide (hsorted : timeline.Pairwise (fun a b => a.1 < b.1)) :
    Divides shortest timeline (divide shortest timeline) := by
  obtain ⟨hjoined, hchain⟩ := divide_spec shortest timeline
  obtain ⟨hwithin, hbetween⟩ := divide_pairwise shortest hsorted
  have hlaid := flatMap_events_divide shortest timeline
  constructor
  case ascending =>
    exact hbetween.imp (fun hgh => hgh _ List.mem_cons_self _ List.mem_cons_self)
  case consecutive => exact hlaid
  case unique =>
    intro e he
    rw [← hlaid] at he
    obtain ⟨g, hg, heg⟩ := List.mem_flatMap.mp he
    exact ⟨g, ⟨hg, heg⟩, fun h hh => eq_of_mem_events hsorted hh.1 hg hh.2 heg⟩
  case begins =>
    intro g _
    exact ⟨g.first, rfl, rfl⟩
  case folded =>
    intro g hg e he
    obtain ⟨hchange, hclose⟩ := (hjoined g hg).folded he
    exact ⟨hchange, (List.pairwise_cons.mp (hwithin g hg)).1 e he, hclose⟩
  case apart =>
    refine List.IsChain.imp_of_mem_imp (fun g h hg hh hjoins => ?_) hchain
    exact (hjoined g hg).apart (hjoined h hh) hjoins
  case pitches =>
    intro g _
    exact ⟨Table.keys_pairwise _, fun _ => mem_keys_notes⟩
  case earliest =>
    intro g _ pitch note
    simp only [get?_notes, List.findSome?_eq_some_iff, Table.get?_eq_none_iff]

end Group

/-- **A strum is folded into one chord, and folding is faithful and stable.** The groups of an
ascending timeline divide it, and the groups written back as a timeline are the groups of this
timeline. -/
theorem Group.divide_faithful (t : LengthTables) {timeline : Timeline}
    (hsorted : timeline.Pairwise (fun a b => a.1 < b.1)) :
    let groups := Group.divide t.shortestRest timeline
    Group.Divides t.shortestRest timeline groups ∧
      (Group.divide t.shortestRest (groups.map Group.entry)).map Group.entry =
        groups.map Group.entry := by
  refine ⟨Group.divides_divide hsorted, ?_⟩
  rw [Group.divide_entries, List.map_map]
  exact List.map_congr_left (fun g _ => Group.entry_single_entry g)

/-- A strum in which a pitch is struck again, a note a shortest rest after it, and one that follows
a change of program. -/
theorem Group.divide_faithful_strum :
    let t := LengthTables.ofResolution 480 none
    let struck (notes : List (Int × Int)) : Option (Table Int Note) :=
      some (Table.ofList (notes.map (fun n => (n.1, { velocity := n.2, offTick := 480 }))))
    let strum : Timeline :=
      [(0, ⟨true, struck [(60, 100)]⟩), (3, ⟨false, struck [(60, 1), (64, 90)]⟩),
        (8, ⟨false, struck [(67, 80)]⟩), (9, ⟨true, none⟩), (10, ⟨false, struck [(72, 70)]⟩)]
    let groups := Group.divide t.shortestRest strum
    strum.Pairwise (fun a b => a.1 < b.1) ∧
      groups.map Group.entry = [(0, ⟨true, struck [(60, 100), (64, 90)]⟩),
        (8, ⟨false, struck [(67, 80)]⟩), (9, ⟨true, struck []⟩), (10, ⟨false, struck [(72, 70)]⟩)] ∧
      Group.Divides t.shortestRest strum groups ∧
      (Group.divide t.shortestRest (groups.map Group.entry)).map Group.entry =
        groups.map Group.entry := by
  intro t struck strum
  have hsorted : strum.Pairwise (fun a b => a.1 < b.1) := by decide +kernel
  exact ⟨hsorted, by decide +kernel, Group.divide_faithful t hsorted⟩

end Transcription
