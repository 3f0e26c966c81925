import Transcription.Proofs.Score.Steps

/-!
# Steps that move no part back

A cursor is changed in four places only: a part jumps to the begin of a slice if it is behind it,
rests up to a tick that it has not reached, and is brought up to the begin of a slice or to the end
of a chord unless it is further on. So no step of the writing moves a part back, and a score in
which every part is at the start or after it stays one.
-/

namespace Transcription

/-! ### Cursors -/

namespace Score

/-- A score in which every part is at the start or after it. -/
def Started (s : Score) : Prop := ∀ id, 0 ≤ (s.part id).cursor

/-- Before the first step every part is at the start. -/
theorem started_empty : Started {} := fun _ => Int.le_refl _

/-- An advance moves no part back. -/
theorem cursor_le_advance (id : PartId) (tick : Int) (s : Score) (id' : PartId) :
    (s.part id').cursor ≤ ((s.advance id tick).part id').cursor := by
  refine (advance_alters id tick s).cursor_le ?_ id'
  rw [PartState.cursor_advanceTo]
  exact Int.le_max_left _ _

/-- A jump moves no part back. -/
theorem cursor_le_jump (current : Slice) (id : PartId) (s : Score) (id' : PartId) :
    (s.part id').cursor ≤ ((s.jump current id).2.part id').cursor := by
  unfold jump
  split
  · rename_i hbehind
    exact (modifyPart_alters s id _).cursor_le (Int.le_of_lt hbehind.1) id'
  · exact Int.le_refl _

/-- A rest by itself moves no part. -/
theorem cursor_le_rest (p : Plan) (id : PartId) (ticks tick : Int) (s : Score) (id' : PartId) :
    (s.part id').cursor ≤ ((s.rest p id ticks tick).2.part id').cursor :=
  (rest_alters p id ticks tick s).2.cursor_le (Int.le_refl _) id'

/-- A rest up to a tick moves no part back. -/
theorem cursor_le_restUpTo (p : Plan) (id : PartId) (tick : Int) (s : Score) (id' : PartId) :
    (s.part id').cursor ≤ ((s.restUpTo p id tick).2.part id').cursor := by
  unfold restUpTo
  by_cases hgap : (s.part id).cursor < tick
  · simp only [hgap, if_true]
    exact Int.le_trans (cursor_le_rest p id _ _ s id') (cursor_le_advance id tick _ id')
  · simp only [hgap, if_false]
    exact Int.le_refl _

/-- A rest inside a chord moves no part. -/
theorem cursor_le_restInChord (p : Plan) (id : PartId) (tick : Int) (cut : Option Int)
    (chordEnd : Int) (s : Score) (id' : PartId) :
    (s.part id').cursor ≤ ((s.restInChord p id tick cut chordEnd).2.part id').cursor := by
  unfold restInChord
  cases cut with
  | none => exact Int.le_refl _
  | some cut =>
    have hrest := cursor_le_rest p id (cut - tick) tick s id'
    cases hstep : s.rest p id (cut - tick) tick with
    | mk length s' =>
      rw [hstep] at hrest
      cases length <;> simpa only [hstep] using hrest

end Score

/-! ### Steps -/

namespace Writing

open Score

variable {α β : Type} {p : Plan}

/-- A step that moves no part back. -/
def Forward (m : Writing α) : Prop :=
  ∀ s a s', Writes m s a s' → ∀ id, (s.part id).cursor ≤ (s'.part id).cursor

namespace Forward

/-- Nothing happens. -/
protected theorem pure (a : α) : Forward (pure a) := by
  rintro s _ _ ⟨⟩ id
  exact Int.le_refl _

/-- Two steps, one after the other. -/
theorem bind {m : Writing α} {f : α → Writing β} (hm : Forward m) (hf : ∀ a, Forward (f a)) :
    Forward (m >>= f) := by
  intro s b s'' h id
  obtain ⟨a, s', hfirst, hrest⟩ := h.exists_bind
  exact Int.le_trans (hm s a s' hfirst id) (hf a s' b s'' hrest id)

/-- The score is read. -/
theorem get : Forward (get : Writing Score) := by
  rintro s _ _ ⟨⟩ id
  exact Int.le_refl _

/-- A computation that may fail moves no part. -/
theorem lift (x : Except Failure α) : Forward (Writing.lift x) := by
  intro s a s' h id
  obtain ⟨-, rfl⟩ := h.of_lift
  exact Int.le_refl _

/-- A step that cannot fail. -/
theorem of {f : Score → α × Score}
    (h : ∀ s id, (s.part id).cursor ≤ ((f s).2.part id).cursor) : Forward (Writing.of f) := by
  rintro s _ _ ⟨⟩ id
  exact h s id

/-- A step that cannot fail and gives nothing back. -/
theorem act {f : Score → Score} (h : ∀ s id, (s.part id).cursor ≤ ((f s).part id).cursor) :
    Forward (Writing.act f) := by
  rintro s _ _ ⟨⟩ id
  exact h s id

/-- A step that may fail. -/
theorem check {f : Score → Except Failure (α × Score)}
    (h : ∀ s a s', f s = .ok (a, s') → ∀ id, (s.part id).cursor ≤ (s'.part id).cursor) :
    Forward (Writing.check f) :=
  fun s a s' hwrite => h s a s' hwrite.of_check

/-- A step for each item of a list. -/
theorem mapM {f : α → Writing β} (hf : ∀ a, Forward (f a)) (l : List α) : Forward (l.mapM f) := by
  induction l with
  | nil => exact .pure []
  | cons a l ih =>
    rw [List.mapM_cons]
    exact (hf a).bind (fun _ => ih.bind (fun _ => .pure _))

end Forward

/-- A change of program moves no part. -/
theorem forward_changePart (p : Plan) (channel : Int) (lane : Channel) (tick : Int) :
    Forward (changePart p channel lane tick) := by
  rintro s _ s' h id
  obtain ⟨_, _, ⟨⟩, h⟩ := h.exists_bind
  obtain ⟨⟨_, _, roster⟩, _, hlift, h⟩ := h.exists_bind
  obtain ⟨_, _, ⟨⟩, ⟨⟩⟩ := h.exists_bind
  obtain ⟨hdeclare, rfl⟩ := hlift.of_lift
  obtain ⟨program, -, hdeclare⟩ := bind_eq_ok.mp hdeclare
  obtain ⟨channel', -, hdeclare⟩ := bind_eq_ok.mp hdeclare
  cases hdeclare
  exact Int.le_of_eq (congrArg PartState.cursor (s.roster.state_add _ id).symm)

/-- To find the part for a chord moves no part. -/
theorem forward_partFor (p : Plan) (channel : Int) (lane : Channel) (tick : Int) :
    Forward (partFor p channel lane tick) := by
  have hchange := forward_changePart p channel lane tick
  refine .bind .get (fun s => ?_)
  cases s.current with
  | none => exact hchange
  | some id =>
    by_cases hlane : s.lanes.get lane = some id
    · simp only [hlane, if_true]
      exact .pure id
    · simp only [hlane, if_false]
      exact hchange

/-- The attributes of a chord move no part. -/
theorem forward_attributes (p : Plan) (id : PartId) (tones : List Tone) :
    Forward (attributes p id tones) := by
  unfold attributes
  cases tones with
  | nil => exact .pure []
  | cons tone rest =>
    by_cases hshown : p.settings.attributes = true
    · simp only [hshown, Bool.not_true, Bool.false_eq_true, if_false]
      refine .bind (.of fun s id' => ?_)
        (fun _ => .bind (.check fun s _ s' h id' => ?_) (fun _ => .pure _))
      · obtain ⟨_, halters, hkeeps⟩ := changeQuant_alters id tone s
        exact halters.cursor_le (Int.le_of_eq hkeeps.cursor.symm) id'
      · obtain ⟨_, halters, hkeeps⟩ := changeVelocity_keeps h
        exact halters.cursor_le (Int.le_of_eq hkeeps.cursor.symm) id'
    · simp only [hshown, Bool.not_false, if_true]
      exact .pure []

/-- A note moves no part. -/
theorem forward_note (id : PartId) (tone : Tone) : Forward (note id tone) := by
  refine .bind .get (fun s => .bind (.lift _) (fun _ => .bind (.act fun s id' => ?_)
    (fun _ => .pure _)))
  exact (modifyPart_alters s id _).cursor_le (Int.le_refl _) id'

end Writing

end Transcription
