import Transcription.Proofs.Reading.Pages
import Transcription.Proofs.Score.Stable
import Transcription.Proofs.Slice.Exact
import Transcription.Proofs.Timing.Run

/-!
# The text of a recording

Global settings take their tempo from the commands of the recording, and no other line has a tempo.
The tempos of a recording that is built with every number in its range are numbers, so the lines of
its score are found again in the text.
-/

namespace Transcription

open Writing

/-! ### Tempos in lines -/

namespace Score

/-- What is written between two scores keeps it that all tempos are numbers. -/
def KeepsPrinted (s s' : Score) : Prop :=
  (∀ l ∈ s.lines, l.Printed) → ∀ l ∈ s'.lines, l.Printed

/-- A line whose tempos are numbers is added. -/
theorem KeepsPrinted.addLine (s : Score) {line : Line} (hline : line.Printed) :
    s.KeepsPrinted (s.addLine line) := by
  intro h l hl
  rcases Array.mem_push.mp hl with hl | rfl
  · exact h l hl
  · exact hline

/-- Only global settings write tempos. -/
theorem KeepsPrinted.stable : Stable KeepsPrinted where
  trans h h' hs := h' (h hs)
  move hlines _ _ hs := by rwa [hlines]
  addLine s line hline := by
    refine addLine s ?_
    cases line with
    | globals settings => exact absurd rfl (hline settings)
    | _ => trivial
  addNotice _ _ _ hs := hs

/-- The global settings of a slice whose tempo is a number keep it that all tempos are. -/
theorem keepsPrinted_addGlobals {current : Slice}
    (htempo : ∀ text, current.globals.get? tempoCommand = some text → Tempo.IsText text)
    (s : Score) : s.KeepsPrinted (s.addGlobals current) := by
  have hkey : (s.changeKey current).2.lines = s.lines ∧
      ∀ text, .tempo text ∉ (s.changeKey current).1 := by
    unfold changeKey
    split
    · exact ⟨rfl, by simp⟩
    · split
      · exact ⟨rfl, by simp⟩
      · exact ⟨rfl, by simp⟩
  obtain ⟨hlines, hnone⟩ := hkey
  have hprinted : (Line.globals ((s.changeKey current).1 ++ tempoSetting current)).Printed := by
    intro text hmem
    rcases List.mem_append.mp hmem with hmem | hmem
    · exact absurd hmem (hnone text)
    · obtain ⟨text', htext, heq⟩ := Option.map_eq_some_iff.mp (Option.mem_toList.mp hmem)
      cases heq
      exact htempo text htext
  intro hs
  simp only [addGlobals]
  split
  · rwa [hlines]
  · exact KeepsPrinted.addLine _ hprinted (by rwa [hlines])

end Score

/-! ### Runs -/

/-- The global settings of a run are those of the slices. -/
theorem Plan.mem_of_globals_mem {p : Plan} {slices : List Slice} {slice : Slice}
    (h : .globals slice ∈ p.actions slices) : slice ∈ slices := by
  rw [actions_eq] at h
  obtain ⟨s, hs, h⟩ := List.mem_flatMap.mp h
  have hmem : s.1 ∈ slices := by
    rw [← List.zipIdx_map_fst 0 slices]
    exact List.mem_map.mpr ⟨s, hs, rfl⟩
  rw [sliceActions_eq, List.mem_cons] at h
  rcases h with h | h
  · cases h
  · rcases mem_content h with heq | heq | ⟨_, _, heq⟩ | ⟨_, _, _, _, heq⟩
    · cases heq
      exact hmem
    · cases heq
    · cases heq
    · cases heq

/-- The slices of a recording that is built with every number in its range can be written, a reader
agrees with the score, and the lines of the score are found again in its text. -/
theorem Recording.exists_paged {r : Recording} (hbuilt : r.Built) (settings : Settings) :
    ∃ slices s R, r.slices = .ok slices ∧ r.HasSlices slices ∧
      (Plan.of r settings).score slices = .ok s ∧ Agrees (Plan.of r settings).tables s R ∧
      s.Paged := by
  have hrep := hbuilt.wellFormed
  obtain ⟨slices, hslices, hhas⟩ := exists_slices hrep
  obtain ⟨s, R, hwrite, hagrees⟩ := Plan.exists_agrees (Plan.proper_of hrep settings) hhas
    (List.append_nil _).symm
  refine ⟨slices, s, R, hslices, hhas, Plan.score_eq_ok.mpr hwrite, hagrees, hagrees.legible, ?_⟩
  have hrun : Along Score.KeepsPrinted
      (((Plan.of r settings).actions slices).forM (Action.write (Plan.of r settings))) := by
    refine .run Score.KeepsPrinted.stable _ (fun slice hmem => Score.keepsPrinted_addGlobals ?_)
    intro text htext
    rw [globals_of_mem hrep hslices (Plan.mem_of_globals_mem hmem)] at htext
    exact hbuilt.isText_tempo htext
  exact hrun hwrite (fun l hl => absurd hl (Array.not_mem_empty l))

end Transcription
