import Transcription.Proofs.Score.Passage

/-!
# Steps besides global settings

Of all actions only the global settings of a slice put a key in force, warn of a key or write a line
with settings. The others add lines of music, move parts on, count, and notice other things. So a
relation that all of these keep is kept by every action but the global settings, and by a whole run
as soon as those keep it too. Some of these steps change nothing but the states of parts: jumps,
attributes and the notes of a chord keep every relation that such changes keep.
-/

namespace Transcription

/-- Something that is noticed, but not about a key. -/
def Notice.OfMusic (n : Notice) : Prop := ∀ w, n = .warning w → w.kind ≠ .invalidKeySignature

namespace Score

variable {p : Plan} {s s' s'' : Score}

/-- A warning that is noticed is added at the end. -/
theorem warnings_addNotice (s : Score) (notice : Notice) :
    (s.addNotice notice).warnings = s.warnings ++ notice.warning?.toList := by
  cases notice <;> simp [warnings, addNotice, Notice.warning?]

/-- A warning is added at the end. -/
theorem warnings_warn (s : Score) (w : Warning) : (s.warn w).warnings = s.warnings ++ [w] :=
  s.warnings_addNotice (.warning w)

/-- A relation from one score to another that holds across all changes of parts. -/
structure Steady (rel : Score → Score → Prop) : Prop where
  trans : ∀ {s s' s''}, rel s s' → rel s' s'' → rel s s''
  modify : ∀ (s : Score) (roster : Roster), rel s { s with roster }

/-- Nothing happens. -/
theorem Steady.refl {rel : Score → Score → Prop} (h : Steady rel) (s : Score) : rel s s :=
  h.modify s s.roster

/-- A relation from one score to another that holds across everything that is done besides global
settings: across moves and counts, new lines without global settings, and notices that are not about
keys. -/
structure Stable (rel : Score → Score → Prop) : Prop where
  trans : ∀ {s s' s''}, rel s s' → rel s' s'' → rel s s''
  move : ∀ {s s' : Score}, s'.lines = s.lines → s'.key = s.key → s'.notices = s.notices → rel s s'
  addLine : ∀ (s : Score) {line : Line}, (∀ settings, line ≠ .globals settings) →
    rel s (s.addLine line)
  addNotice : ∀ (s : Score) {notice : Notice}, Notice.OfMusic notice → rel s (s.addNotice notice)

namespace Stable

variable {rel : Score → Score → Prop} (h : Stable rel)

include h

/-- Changes of parts are moves. -/
theorem steady : Steady rel where
  trans := h.trans
  modify _ _ := h.move rfl rfl rfl

/-- Nothing happens. -/
theorem refl (s : Score) : rel s s := h.steady.refl s

/-- A part is selected. -/
theorem select (id : PartId) (s : Score) : rel s (s.select id) := by
  unfold Score.select
  split
  · exact h.refl s
  · have hline : rel s (s.addLine (.select id)) := h.addLine s nofun
    exact h.trans hline (h.move rfl rfl rfl)

/-- A part rests. -/
theorem rest (p : Plan) (id : PartId) (ticks tick : Int) (s : Score) :
    rel s (s.rest p id ticks tick).2 := by
  have hwarn : Notice.OfMusic (.warning (restWarning id ticks tick)) := by
    rintro _ ⟨⟩
    simp [restWarning]
  unfold Score.rest
  split
  · exact h.refl s
  · dsimp only
    split
    · exact h.trans (h.addNotice s hwarn) (h.move rfl rfl rfl)
    · exact h.move rfl rfl rfl

/-- A part rests up to a tick. -/
theorem restUpTo (p : Plan) (id : PartId) (tick : Int) (s : Score) :
    rel s (s.restUpTo p id tick).2 := by
  unfold Score.restUpTo
  dsimp only
  split
  · exact h.trans (h.rest p id _ _ s) (h.move rfl rfl rfl)
  · exact h.refl s

/-- A part rests inside a chord. -/
theorem restInChord (p : Plan) (id : PartId) (tick : Int) (cut : Option Int) (chordEnd : Int)
    (s : Score) : rel s (s.restInChord p id tick cut chordEnd).2 := by
  unfold Score.restInChord
  cases cut with
  | none => exact h.refl s
  | some cut =>
    have hrest := h.rest p id (cut - tick) tick s
    cases hstep : s.rest p id (cut - tick) tick with
    | mk length s' =>
      rw [hstep] at hrest
      cases length <;> simpa only [hstep] using hrest

/-- The part that is furthest along rests up to the begin of a slice. -/
theorem restBeforeSlice (p : Plan) (current : Slice) (s : Score) :
    rel s (s.restBeforeSlice p current) := by
  unfold Score.restBeforeSlice
  split
  · exact h.refl s
  · rename_i id part _
    split
    · exact h.refl s
    · have hrest := h.trans (h.select id s)
        (h.rest p id (current.beginTick - part.cursor) part.cursor (s.select id))
      generalize (s.select id).rest p id (current.beginTick - part.cursor) part.cursor = x at hrest
      obtain ⟨length, s'⟩ := x
      cases length with
      | none => exact h.trans hrest (h.move rfl rfl rfl)
      | some length =>
        have hline : rel s' (s'.addLine (.rest length)) := h.addLine s' nofun
        exact h.trans (h.trans hrest hline) (h.move rfl rfl rfl)

/-- The begin of a slice is marked, or it is noticed that it has no marker. -/
theorem mark (current : Slice) (s : Score) : rel s (s.mark current) := by
  unfold Score.mark
  split
  · exact h.addNotice s nofun
  · rename_i id part _
    split
    · have hline : rel (s.select id) ((s.select id).addLine (.marker s.slice)) :=
        h.addLine _ nofun
      exact h.trans (h.trans (h.select id s) hline) (h.move rfl rfl rfl)
    · exact h.addNotice s nofun

/-- A slice is begun. -/
theorem beginSlice (p : Plan) (current : Slice) (number : Int) (s : Score) :
    rel s (s.beginSlice p current number) := by
  have hmarked : rel s (if 0 < number then
      (Score.restBeforeSlice p current { s with slice := number }).mark current
      else { s with slice := number }) := by
    have hnumber : rel s { s with slice := number } := h.move rfl rfl rfl
    split
    · exact h.trans hnumber (h.trans (h.restBeforeSlice p current _) (h.mark current _))
    · exact hnumber
  have hcomment (s' : Score) (hs' : rel s s') :
      rel s (if p.settings.sliceComments then s'.addLine (.comment number) else s') := by
    split
    · exact h.trans hs' (h.addLine s' nofun)
    · exact hs'
  exact hcomment _ (h.trans hmarked (h.addLine _ nofun))

/-- Notes are counted. -/
theorem countTones (channel tick : Int) (tones : List Tone) (s : Score) :
    rel s (s.countTones channel tick tones) := by
  induction tones generalizing s with
  | nil => exact h.refl s
  | cons tone rest ih =>
    have hwarn : Notice.OfMusic (.warning (noteWarning channel tick tone)) := by
      rintro _ ⟨⟩
      simp [noteWarning]
    refine h.trans ?_ (ih (countTone channel tick s tone))
    unfold countTone
    split
    · exact h.trans (h.addNotice s hwarn) (h.move rfl rfl rfl)
    · exact h.move rfl rfl rfl

end Stable

end Score

/-! ### Steps of writing -/

namespace Writing

variable {α β : Type} {rel : Score → Score → Prop}

/-- A step that goes along a relation whenever it succeeds. -/
def Along (rel : Score → Score → Prop) (m : Writing α) : Prop :=
  ∀ ⦃s a s'⦄, Writes m s a s' → rel s s'

namespace Along

open Score (Stable Steady)

/-- A step that cannot fail. -/
theorem of {f : Score → α × Score} (h : ∀ s : Score, rel s (f s).2) : Along rel (Writing.of f) := by
  rintro s _ _ ⟨⟩
  exact h s

/-- A step that cannot fail and gives nothing back. -/
theorem act {f : Score → Score} (h : ∀ s : Score, rel s (f s)) : Along rel (Writing.act f) := by
  rintro s _ _ ⟨⟩
  exact h s

section Steady

variable (hrel : Steady rel)

include hrel

/-- Nothing happens. -/
protected theorem pure (a : α) : Along rel (pure a : Writing α) := by
  rintro s _ _ ⟨⟩
  exact hrel.refl s

/-- The score is read. -/
protected theorem get : Along rel (get : Writing Score) := by
  rintro s _ _ ⟨⟩
  exact hrel.refl s

/-- Two steps, one after the other. -/
protected theorem bind {m : Writing α} {f : α → Writing β} (hm : Along rel m)
    (hf : ∀ a, Along rel (f a)) : Along rel (m >>= f) := by
  intro s b s'' h
  obtain ⟨a, s', hfirst, hsecond⟩ := h.exists_bind
  exact hrel.trans (hm hfirst) (hf a hsecond)

/-- A computation that may fail. -/
theorem lift (x : Except Failure α) : Along rel (Writing.lift x) := by
  cases x with
  | ok a => exact .pure hrel a
  | error e => rintro s _ _ ⟨⟩

omit hrel in
/-- A step that may fail. -/
theorem check {f : Score → Except Failure (α × Score)}
    (h : ∀ {s a s'}, f s = .ok (a, s') → rel s s') : Along rel (Writing.check f) := by
  intro s a s' hwrites
  exact h hwrites.of_check

/-- Steps for the items of a list. -/
theorem mapM {f : α → Writing β} (h : ∀ a, Along rel (f a)) (l : List α) :
    Along rel (l.mapM f) := by
  induction l with
  | nil => exact .pure hrel []
  | cons a l ih =>
    rw [List.mapM_cons]
    exact .bind hrel (h a) (fun _ => .bind hrel ih (fun _ => .pure hrel _))

/-- Attributes of a chord. -/
theorem attributes (p : Plan) (id : PartId) (tones : List Score.Tone) :
    Along rel (Writing.attributes p id tones) := by
  unfold Writing.attributes
  split
  · exact .pure hrel []
  · rename_i tone _
    split
    · exact .pure hrel []
    · have hquant (s : Score) : rel s (s.changeQuant id tone).2 := by
        simp only [Score.changeQuant]
        split
        · exact hrel.refl s
        · exact hrel.modify _ _
      refine .bind hrel (of hquant) (fun quants => .bind hrel (check ?_)
        (fun _ => .pure hrel _))
      intro s volumes s' hvelocity
      unfold Score.changeVelocity at hvelocity
      split at hvelocity
      · cases hvelocity
        exact hrel.refl s
      · obtain ⟨percent, _, hvelocity⟩ := bind_eq_ok.mp hvelocity
        cases hvelocity
        exact hrel.modify _ _

/-- A jump. -/
theorem jump (current : Slice) (id : PartId) : Along rel (Writing.of (Score.jump current id)) := by
  refine .of (fun s => ?_)
  unfold Score.jump
  split
  · exact hrel.modify s _
  · exact hrel.refl s

/-- A note of a chord. -/
theorem note (id : PartId) (tone : Score.Tone) : Along rel (Writing.note id tone) := by
  refine .bind hrel (.get hrel) (fun _ => .bind hrel (lift hrel _) (fun spelled => ?_))
  obtain ⟨name, octave⟩ := spelled
  exact .bind hrel (act (fun _ => hrel.modify _ _)) (fun _ => .pure hrel _)

end Steady

section Stable

variable (hrel : Stable rel)

include hrel

/-- A change of part. -/
theorem changePart (p : Plan) (channel : Int) (lane : Channel) (tick : Int) :
    Along rel (Writing.changePart p channel lane tick) := by
  have hsteady := hrel.steady
  refine .bind hsteady (.get hsteady) (fun _ => .bind hsteady (lift hsteady _) (fun declared => ?_))
  obtain ⟨id, isNew, roster⟩ := declared
  refine .bind hsteady (act (fun s => ?_)) (fun _ => .pure hsteady id)
  have hline : ∀ settings, (if isNew then Line.declare id else .select id) ≠ .globals settings := by
    intro settings
    split <;> nofun
  exact hrel.trans (hrel.addLine s hline) (hrel.move rfl rfl rfl)

/-- The part for a chord. -/
theorem partFor (p : Plan) (channel : Int) (lane : Channel) (tick : Int) :
    Along rel (Writing.partFor p channel lane tick) := by
  refine .bind hrel.steady (.get hrel.steady) (fun s => ?_)
  split
  · split
    · exact .pure hrel.steady _
    · exact changePart hrel p channel lane tick
  · exact changePart hrel p channel lane tick

/-- A chord. -/
theorem chord (p : Plan) (current : Slice) (channel : Int) (lane : Channel) (tick : Int)
    (next : Option Int) (tones : List Score.Tone) :
    Along rel (Writing.chord p current channel lane tick next tones) := by
  have hsteady := hrel.steady
  refine .bind hsteady (partFor hrel p channel lane tick) (fun id => ?_)
  refine .bind hsteady (jump hsteady current id) (fun jump => ?_)
  refine .bind hsteady (of (hrel.restUpTo p id tick)) (fun gap => ?_)
  refine .bind hsteady (attributes hsteady p id tones) (fun attributes => ?_)
  refine .bind hsteady (mapM hsteady (note hsteady id) tones) (fun notes => ?_)
  refine .bind hsteady (of (hrel.restInChord p id tick _ _)) (fun rests => act (fun s => ?_))
  let line : Line := .chord { jump, gap, attributes, elements := notes ++ rests.1 }
  have hline : rel s (s.addLine line) := hrel.addLine s nofun
  exact hrel.trans hline (hrel.move rfl rfl rfl)

/-- Every action but the global settings of a slice goes along a stable relation. -/
theorem action (p : Plan) {a : Action} (h : ∀ slice, a ≠ .globals slice) :
    Along rel (a.write p) := by
  cases a with
  | beginSlice slice number => exact act (hrel.beginSlice p slice number)
  | globals slice => exact absurd rfl (h slice)
  | blank => exact act (fun s => hrel.addLine s nofun)
  | change channel tick =>
    exact .bind hrel.steady (changePart hrel p channel.val channel tick)
      (fun _ => .pure hrel.steady ())
  | chord c =>
    exact .bind hrel.steady (act (hrel.countTones c.channel.val c.tick c.tones))
      (fun _ => chord hrel p c.slice c.channel.val c.channel c.tick c.next c.tones)

/-- A run goes along a stable relation if the global settings in it do. -/
theorem run (p : Plan) {actions : List Action}
    (hglobals : ∀ slice, .globals slice ∈ actions → ∀ s : Score, rel s (s.addGlobals slice)) :
    Along rel (actions.forM (Action.write p)) := by
  induction actions with
  | nil => exact .pure hrel.steady ()
  | cons a rest ih =>
    have hfirst : Along rel (a.write p) := by
      by_cases h : ∃ slice, a = .globals slice
      · obtain ⟨slice, rfl⟩ := h
        exact act (hglobals slice List.mem_cons_self)
      · exact action hrel p (fun slice heq => h ⟨slice, heq⟩)
    exact .bind hrel.steady hfirst (fun _ => ih (fun slice hmem => hglobals slice
      (List.mem_cons_of_mem _ hmem)))

end Stable

end Along

end Writing

end Transcription
