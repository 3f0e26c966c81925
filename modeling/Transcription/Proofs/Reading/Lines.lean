import Transcription.Proofs.Reading.Reader

/-!
# What lines do to a reader

A line may declare a part, select one, mark a slice or jump to a marker. That is all that matters
for which parts a reader knows, which one is selected and which markers there are; and a reader who
goes on after a jump has found the marker before.
-/

namespace Transcription

namespace Line

/-- The part that a line declares, if it declares one. -/
def declares? : Line → Option PartId
  | declare id => some id
  | _ => none

/-- The part that a line selects, if it selects one. A declaration selects its part. -/
def selects? : Line → Option PartId
  | declare id => some id
  | select id => some id
  | _ => none

/-- The slice that a line marks, if it marks one. -/
def marks? : Line → Option Int
  | marker slice => some slice
  | _ => none

/-- The slice to whose marker a line jumps, if it jumps. -/
def jumps? : Line → Option Int
  | chord line => line.jump
  | _ => none

/-- A line that declares no part, marks no slice and jumps to none. -/
structure Plain (l : Line) : Prop where
  declares : l.declares? = none
  marks : l.marks? = none
  jumps : l.jumps? = none

end Line

namespace Reading

variable {t : LengthTables} {R R' : Reading}

/-- What one line does to a reader who can read it. -/
structure Follows (R : Reading) (l : Line) (R' : Reading) : Prop where
  declared : R'.declared = R.declared ++ l.declares?.toList
  current : R'.current = l.selects?.or R.current
  marks : R'.marks.map Prod.fst = l.marks?.toList ++ R.marks.map Prod.fst
  jumps : ∀ n, l.jumps? = some n → n ∈ R.marks.map Prod.fst

/-- A marker that is found is among those that were read. -/
theorem mem_marks_of_mark? {n position : Int} (h : R.mark? n = some position) :
    n ∈ R.marks.map Prod.fst := by
  obtain ⟨mark, hfound, _⟩ := Option.map_eq_some_iff.mp h
  have hn : mark.1 = n := by simpa using List.find?_some hfound
  exact List.mem_map.mpr ⟨mark, List.mem_of_find?_eq_some hfound, hn⟩

/-- Global settings change the key only. -/
theorem settings_eq (R : Reading) (settings : List GlobalSetting) :
    ∃ key, R.settings settings = { R with key } := by
  induction settings generalizing R with
  | nil => exact ⟨R.key, rfl⟩
  | cons setting rest ih =>
    cases setting with
    | key signature => exact ih { R with key := signature }
    | tempo text => exact ih R

/-- A line that can be read does what it says. -/
theorem follows_of_line? {l : Line} (h : R.line? t l = some R') : R.Follows l R' := by
  have hnone {α : Type} (l : List α) : l = l ++ (none : Option α).toList := (List.append_nil l).symm
  cases l with
  | blank =>
    cases h
    exact ⟨hnone _, rfl, rfl, nofun⟩
  | comment slice =>
    cases h
    exact ⟨hnone _, rfl, rfl, nofun⟩
  | globals settings =>
    obtain ⟨key, hkey⟩ := R.settings_eq settings
    cases (congrArg some hkey).symm.trans h
    exact ⟨hnone _, rfl, rfl, nofun⟩
  | declare part =>
    rw [line?] at h
    split at h
    · cases h
    · cases h
      exact ⟨rfl, rfl, rfl, nofun⟩
  | select part =>
    rw [line?] at h
    split at h
    · cases h
      exact ⟨hnone _, rfl, rfl, nofun⟩
    · cases h
  | marker slice =>
    obtain ⟨id, _, rfl⟩ := Option.map_eq_some_iff.mp h
    exact ⟨hnone _, rfl, rfl, nofun⟩
  | rest length =>
    obtain ⟨id, _, h⟩ := Option.bind_eq_some_iff.mp h
    obtain ⟨v, _, h⟩ := Option.bind_eq_some_iff.mp h
    cases h
    exact ⟨hnone _, rfl, rfl, nofun⟩
  | chord line =>
    obtain ⟨id, _, h⟩ := Option.bind_eq_some_iff.mp h
    obtain ⟨v, hjump, h⟩ := Option.bind_eq_some_iff.mp h
    obtain ⟨_, _, h⟩ := Option.bind_eq_some_iff.mp h
    obtain ⟨_, _, h⟩ := Option.bind_eq_some_iff.mp h
    obtain ⟨_, _, h⟩ := Option.bind_eq_some_iff.mp h
    cases h
    refine ⟨hnone _, rfl, rfl, fun n hn => ?_⟩
    have hline : line.jump = some n := hn
    rw [hline] at hjump
    obtain ⟨position, hmark, _⟩ := Option.map_eq_some_iff.mp hjump
    exact mem_marks_of_mark? hmark

/-! ### Reading all lines -/

/-- The part that is selected after some lines. -/
def selected (current : Option PartId) (lines : List Line) : Option PartId :=
  lines.foldl (fun current l => l.selects?.or current) current

/-- The part that is selected after some lines, and then more lines. -/
theorem selected_append (current : Option PartId) (lines more : List Line) :
    selected current (lines ++ more) = selected (selected current lines) more := List.foldl_append

/-- The jumps of some lines, each with the part that is selected then. -/
def jumps (current : Option PartId) : List Line → List (Option PartId × Int)
  | [] => []
  | l :: rest => (l.jumps?.map (fun n => (current, n))).toList ++
      jumps (l.selects?.or current) rest

/-- The jumps of lines, and then those of more lines. -/
theorem jumps_append (current : Option PartId) (lines more : List Line) :
    jumps current (lines ++ more) =
      jumps current lines ++ jumps (selected current lines) more := by
  induction lines generalizing current with
  | nil => rfl
  | cons l rest ih =>
    rw [List.cons_append, jumps, jumps, ih, List.append_assoc]
    rfl

/-- Lines without jumps have none. -/
theorem jumps_eq_nil {lines : List Line} (h : ∀ l ∈ lines, l.jumps? = none)
    (current : Option PartId) : jumps current lines = [] := by
  induction lines generalizing current with
  | nil => rfl
  | cons l rest ih =>
    rw [jumps, h l List.mem_cons_self, ih (fun l' hl' => h l' (List.mem_cons_of_mem _ hl'))]
    rfl

/-- What lines do to a reader who can read them, one after the other. -/
theorem follows_of_lines? {lines : List Line} (h : R.lines? t lines = some R') :
    R'.declared = R.declared ++ lines.filterMap Line.declares? ∧
      R'.current = selected R.current lines ∧
      R'.marks.map Prod.fst = (lines.filterMap Line.marks?).reverse ++ R.marks.map Prod.fst := by
  induction lines generalizing R with
  | nil =>
    cases h
    simp [selected]
  | cons l rest ih =>
    rw [lines?, List.foldlM_cons] at h
    obtain ⟨R₁, hline, hrest⟩ := Option.bind_eq_some_iff.mp h
    have hfollows := follows_of_line? hline
    obtain ⟨hdeclared, hcurrent, hmarks⟩ := ih hrest
    refine ⟨?_, ?_, ?_⟩
    · rw [hdeclared, hfollows.declared]
      cases hl : l.declares? <;> simp [hl]
    · rw [hcurrent, hfollows.current]
      rfl
    · rw [hmarks, hfollows.marks]
      cases hl : l.marks? <;> simp [hl]

/-- A reader of some lines who can go on after a jump has read the marker. -/
theorem marker_of_jump {lines rest : List Line} {l : Line}
    (h : ({} : Reading).lines? t (lines ++ l :: rest) = some R) {n : Int}
    (hjump : l.jumps? = some n) : .marker n ∈ lines := by
  rw [lines?, List.foldlM_append] at h
  obtain ⟨R₁, hlines, h⟩ := Option.bind_eq_some_iff.mp h
  rw [List.foldlM_cons] at h
  obtain ⟨R₂, hline, _⟩ := Option.bind_eq_some_iff.mp h
  have hmem := (follows_of_line? hline).jumps n hjump
  rw [(follows_of_lines? hlines).2.2] at hmem
  obtain ⟨l', hl', hmarks⟩ : ∃ l' ∈ lines, l'.marks? = some n := by simpa using hmem
  cases l' with
  | marker slice => exact Option.some.inj hmarks ▸ hl'
  | _ => cases hmarks

end Reading

end Transcription
