import Transcription.Proofs.Slice.Filling
import Transcription.Slice.Editing

/-!
# Frozen slices never change

Every operation checks what it needs before it touches the slice. So an operation in place does all
at once or nothing: it gives what the same operation gives on a slice as a value, and a failure
leaves the slice as it was. From there on one look at each operation says what a whole history of
them keeps: the begin, an end after it, and everything once the slice is frozen.
-/

namespace Transcription

/-! ### Timelines and freezing -/

namespace Timeline

/-- Changing an event is the same whether or not an empty one was added before. -/
theorem alter_withEvent (tick : Int) (f : Event → Event) (t : Timeline) :
    (t.withEvent tick).alter tick f = t.alter tick f := by
  induction t with
  | nil => simp [withEvent, alter]
  | cons e rest ih =>
    by_cases he : e.1 = tick
    · have hthere : withEvent tick (e :: rest) = e :: rest := by simp [withEvent, he]
      rw [hthere]
    · have hlater : withEvent tick (e :: rest) = e :: withEvent tick rest := by
        by_cases hrest : ∃ e' ∈ rest, e'.1 = tick
        · simp [withEvent, he, hrest]
        · simp [withEvent, he, hrest]
      rw [hlater, alter, if_neg he, alter, if_neg he, ih]

/-- Sorting an ascending timeline changes nothing. -/
theorem sorted_eq_self {t : Timeline} (h : t.Pairwise (fun a b => a.1 < b.1)) : t.sorted = t := by
  have hentries := Table.ofList_entries (⟨t, h⟩ : Table Int Event)
  exact congrArg Table.entries hentries

end Timeline

/-- There is a lane for every channel, and for the negative numbers that count back. -/
theorem Channel.lane_eq_error {n : Int} {e : Failure} :
    Channel.lane n = .error e ↔ e = .outOfBounds ∧ ¬ (-channelCount ≤ n ∧ n < channelCount) := by
  unfold Channel.lane
  by_cases hnamed : 0 ≤ n ∧ n < channelCount
  · rw [dif_pos hnamed]
    refine ⟨fun h => (nomatch h), fun h => absurd ⟨?_, hnamed.2⟩ h.2⟩
    omega
  · rw [dif_neg hnamed]
    by_cases hback : -channelCount ≤ n ∧ n < 0
    · rw [dif_pos hback]
      refine ⟨fun h => (nomatch h), fun h => absurd ⟨hback.1, ?_⟩ h.2⟩
      omega
    · rw [dif_neg hback]
      refine ⟨fun h => ⟨(Except.error.inj h).symm, ?_⟩, fun h => congrArg Except.error h.1.symm⟩
      omega

namespace Slice

variable (s : Slice) (lane : Channel)

/-- Two changes of one timeline are one. -/
theorem modifyTimeline_modifyTimeline (f g : Timeline → Timeline) :
    (s.modifyTimeline lane f).modifyTimeline lane g = s.modifyTimeline lane (g ∘ f) := by
  have hget : (s.modifyTimeline lane f).timelines.get lane = f (s.timelines.get lane) := by
    have hset := get_setTimeline s lane lane (f (s.timelines.get lane))
    rwa [if_pos rfl] at hset
  rw [modifyTimeline, hget]
  simp [modifyTimeline]

/-- Sorting timelines one after the other touches nothing else. -/
theorem foldl_sorted (lanes : List Channel) (s : Slice) :
    ∃ timelines, lanes.foldl (fun s lane => s.modifyTimeline lane Timeline.sorted) s =
      { s with timelines } := by
  induction lanes generalizing s with
  | nil => exact ⟨s.timelines, rfl⟩
  | cons first rest ih =>
    obtain ⟨timelines, heq⟩ := ih (s.modifyTimeline first Timeline.sorted)
    exact ⟨timelines, heq⟩

/-- Of the timelines that are sorted one after the other each is sorted once, and the others
stay. -/
theorem get_foldl_sorted {lanes : List Channel} (hnodup : lanes.Nodup) (s : Slice)
    (lane : Channel) :
    let sorted := lanes.foldl (fun s lane => s.modifyTimeline lane Timeline.sorted) s
    (lane ∈ lanes → sorted.timelines.get lane = (s.timelines.get lane).sorted) ∧
      (lane ∉ lanes → sorted.timelines.get lane = s.timelines.get lane) := by
  induction lanes generalizing s with
  | nil => exact ⟨fun hmem => absurd hmem List.not_mem_nil, fun _ => rfl⟩
  | cons first rest ih =>
    rw [List.nodup_cons] at hnodup
    have hget : (s.modifyTimeline first Timeline.sorted).timelines.get lane =
        if first = lane then (s.timelines.get first).sorted else s.timelines.get lane :=
      get_setTimeline s first lane _
    obtain ⟨hin, hout⟩ := ih hnodup.2 (s.modifyTimeline first Timeline.sorted)
    rw [hget] at hin hout
    by_cases hfirst : first = lane
    · subst hfirst
      rw [if_pos rfl] at hout
      exact ⟨fun _ => hout hnodup.1, fun hmem => absurd List.mem_cons_self hmem⟩
    · rw [if_neg hfirst] at hin hout
      rw [List.mem_cons, or_iff_right (Ne.symm hfirst)]
      exact ⟨hin, hout⟩

/-- Sorting all timelines one after the other and then freezing the slice is freezing it. -/
theorem frozen_foldl_sorted (s : Slice) :
    { (List.finRange channelCount).foldl
        (fun s lane => s.modifyTimeline lane Timeline.sorted) s with frozen := true } =
      s.freeze := by
  have hget := get_foldl_sorted (List.nodup_finRange channelCount) s
  obtain ⟨timelines, heq⟩ := foldl_sorted (List.finRange channelCount) s
  rw [heq]
  have hsorted : timelines = s.timelines.map Timeline.sorted := by
    apply Vector.ext
    intro i hi
    have hlane := (hget ⟨i, hi⟩).1 (List.mem_finRange _)
    rw [heq] at hlane
    rw [Vector.getElem_map]
    exact hlane
  rw [hsorted, freeze]

@[simp] theorem frozen_freeze (s : Slice) : s.freeze.frozen = true := rfl

/-- The timelines of a frozen slice ascend. -/
theorem freeze_ascending (s : Slice) (lane : Channel) :
    (s.freeze.timelines.get lane).Pairwise (fun a b => a.1 < b.1) := by
  have hget : s.freeze.timelines.get lane = (s.timelines.get lane).sorted :=
    Vector.getElem_map Timeline.sorted lane.isLt
  rw [hget]
  exact Timeline.sorted_pairwise _

/-- Freezing a frozen slice whose timelines ascend changes nothing. -/
theorem freeze_eq_self {s : Slice} (hfrozen : s.frozen = true)
    (hascending : ∀ lane, (s.timelines.get lane).Pairwise (fun a b => a.1 < b.1)) :
    s.freeze = s := by
  have hsorted : s.timelines.map Timeline.sorted = s.timelines := by
    apply Vector.ext
    intro i hi
    rw [Vector.getElem_map]
    exact Timeline.sorted_eq_self (hascending ⟨i, hi⟩)
  rw [freeze, hsorted, ← hfrozen]

/-! ### What the check lets through -/

variable {α : Type} {s s' : Slice} {k : Unit → Except Failure α} {e : Failure}

/-- What comes after the check of a slice succeeds if the slice is open. -/
theorem checked_eq_ok {a : α} :
    (s.checkOpen >>= k) = .ok a ↔ s.frozen = false ∧ k () = .ok a := by
  cases hfrozen : s.frozen with
  | true => simp [checkOpen, hfrozen, bind, Except.bind]
  | false => simp [checkOpen, hfrozen, bind, Except.bind]

/-- What comes after the check of a slice fails if the slice is frozen, or later. -/
theorem checked_eq_error :
    (s.checkOpen >>= k) = .error e ↔
      s.frozen = true ∧ e = .frozen s.beginTick s.endTick ∨ s.frozen = false ∧ k () = .error e := by
  cases hfrozen : s.frozen with
  | true => simp [checkOpen, hfrozen, bind, Except.bind, eq_comm]
  | false => simp [checkOpen, hfrozen, bind, Except.bind]

/-- Nothing comes after the check of a frozen slice. -/
theorem checked_of_frozen (hfrozen : s.frozen = true) :
    (s.checkOpen >>= k) = .error (.frozen s.beginTick s.endTick) :=
  checked_eq_error.mpr (Or.inl ⟨hfrozen, rfl⟩)

/-- A slice was open and changed into one that is open, has the same begin, and ends where it did or
after its begin. -/
structure ChangedTo (s s' : Slice) : Prop where
  /-- Only open slices are changed. -/
  wasOpen : s.frozen = false
  /-- They stay open. -/
  isOpen : s'.frozen = false
  /-- They keep their begin. -/
  beginTick : s'.beginTick = s.beginTick
  /-- They end where they did or after their begin. -/
  endTick : s'.endTick = s.endTick ∨ s.beginTick < s'.endTick

theorem changedTo_addCommand {name value : String} (h : s.addCommand name value = .ok s') :
    s.ChangedTo s' := by
  obtain ⟨hopen, hrest⟩ := checked_eq_ok.mp h
  cases hrest
  exact ⟨hopen, hopen, rfl, Or.inl rfl⟩

theorem changedTo_close {endTick : Int} (h : s.close endTick = .ok s') : s.ChangedTo s' := by
  obtain ⟨hopen, hrest⟩ := checked_eq_ok.mp h
  by_cases hend : endTick ≤ s.beginTick
  · simp [hend, bind, Except.bind] at hrest
  · rw [if_neg hend] at hrest
    cases hrest
    exact ⟨hopen, hopen, rfl, Or.inr (Int.lt_of_not_ge hend)⟩

theorem changedTo_alterEvent {tick channel : Int} {f : Event → Event}
    (h : s.alterEvent tick channel f = .ok s') : s.ChangedTo s' := by
  obtain ⟨hopen, hrest⟩ := checked_eq_ok.mp h
  obtain ⟨lane, _, hlane⟩ := bind_eq_ok.mp hrest
  cases hlane
  exact ⟨hopen, hopen, rfl, Or.inl rfl⟩

theorem changedTo_takeStrikes {strikes : Table Int Strikes} (h : s.takeStrikes strikes = .ok s') :
    s.ChangedTo s' := by
  obtain ⟨hopen, hrest⟩ := checked_eq_ok.mp h
  cases hrest
  exact ⟨hopen, hopen, rfl, Or.inl rfl⟩

theorem changedTo_takePresses {presses : Table Int (Table Int Presses)}
    (h : s.takePresses presses = .ok s') : s.ChangedTo s' := by
  obtain ⟨hopen, hrest⟩ := checked_eq_ok.mp h
  cases hrest
  exact ⟨hopen, hopen, rfl, Or.inl rfl⟩

end Slice

namespace Editing

variable {α β : Type} {s s' : Slice} {a : α} {e : Failure}

/-! ### All at once or nothing -/

/-- An operation that gives what a function of the slice gives. When the function fails, nothing is
changed. -/
def atOnce (f : Slice → Except Failure (α × Slice)) : Editing α := fun s =>
  match f s with
  | .ok (a, s') => .ok a s'
  | .error e => .error e s

variable {f : Slice → Except Failure (α × Slice)}

theorem atOnce_of_ok (h : f s = .ok (a, s')) : atOnce f s = .ok a s' := by
  simp [atOnce, h]

theorem atOnce_of_error (h : f s = .error e) : atOnce f s = .error e s := by
  simp [atOnce, h]

/-- Two steps are done at once if the first one has changed nothing whenever the second one
fails. -/
theorem bind_atOnce {g : α → Slice → Except Failure (β × Slice)}
    (hsafe : ∀ s a s' e, f s = .ok (a, s') → g a s' = .error e → s' = s) :
    (atOnce f >>= fun a => atOnce (g a)) = atOnce (fun s => f s >>= fun r => g r.1 r.2) := by
  funext s
  change EStateM.bind (atOnce f) (fun a => atOnce (g a)) s = _
  cases hf : f s with
  | error e =>
    have hboth : (f s >>= fun r => g r.1 r.2) = .error e := by rw [hf]; rfl
    rw [EStateM.bind, atOnce_of_error hf, atOnce_of_error hboth]
  | ok first =>
    have hboth : (f s >>= fun r => g r.1 r.2) = g first.1 first.2 := by rw [hf]; rfl
    rw [EStateM.bind, atOnce_of_ok hf]
    cases hg : g first.1 first.2 with
    | error e =>
      rw [atOnce_of_error (hboth.trans hg)]
      change atOnce (g first.1) first.2 = _
      rw [atOnce_of_error hg, hsafe s first.1 first.2 e hf hg]
    | ok second =>
      rw [atOnce_of_ok (hboth.trans hg)]
      exact atOnce_of_ok hg

/-- A check only looks at the slice. -/
theorem bind_check {check : Slice → Except Failure α} {g : α → Slice → Except Failure (β × Slice)} :
    (atOnce (fun s => do return (← check s, s)) >>= fun a => atOnce (g a)) =
      atOnce (fun s => check s >>= fun a => g a s) := by
  rw [bind_atOnce]
  · congr 1
    funext s
    cases check s with
    | ok a => rfl
    | error e => rfl
  · intro s a s' e hcheck _
    cases hchecked : check s with
    | ok b =>
      rw [hchecked] at hcheck
      cases hcheck
      rfl
    | error b =>
      rw [hchecked] at hcheck
      cases hcheck

/-- A step that cannot fail comes after one that is done at once. -/
theorem bind_total {g : α → Slice → β × Slice} :
    (atOnce f >>= fun a => atOnce (fun s => .ok (g a s))) =
      atOnce (fun s => do
        let (a, s') ← f s
        return g a s') := by
  rw [bind_atOnce]
  · rfl
  · intro s a s' e _ hfails
    cases hfails

/-! ### Each operation -/

/-- The check is done at once. -/
theorem checkOpen_eq : checkOpen = atOnce (fun s => do return (← s.checkOpen, s)) := by
  funext s
  change (if s.frozen then throw (Failure.frozen s.beginTick s.endTick) else pure () :
    Editing Unit) s = _
  cases hfrozen : s.frozen with
  | true =>
    have hcheck : s.checkOpen = .error (.frozen s.beginTick s.endTick) := by
      rw [Slice.checkOpen, hfrozen, if_pos rfl]
    have hchecked : (do return (← s.checkOpen, s)) =
        (.error (.frozen s.beginTick s.endTick) : Except Failure (Unit × Slice)) := by
      rw [hcheck]
      rfl
    rw [atOnce_of_error hchecked]
    rfl
  | false =>
    have hcheck : s.checkOpen = .ok () := by
      rw [Slice.checkOpen, hfrozen, if_neg (by decide)]
    have hchecked : (do return (← s.checkOpen, s)) =
        (.ok ((), s) : Except Failure (Unit × Slice)) := by
      rw [hcheck]
      rfl
    rw [atOnce_of_ok hchecked]
    rfl

/-- Looking for the timeline of a channel is done at once. -/
theorem lane_eq (channel : Int) : (MonadExcept.ofExcept (Channel.lane channel) : Editing Channel) =
    atOnce (fun s => do return (← Channel.lane channel, s)) := by
  funext s
  cases hlane : Channel.lane channel with
  | ok lane => rfl
  | error e => rfl

/-- A change that cannot fail is done at once. -/
theorem modify_eq (f : Slice → Slice) :
    (modify f : Editing Unit) = atOnce (fun s => .ok ((), f s)) :=
  rfl

/-- Setting a global command in place sets it in the slice. -/
theorem addCommand_eq (name value : String) :
    Editing.addCommand name value =
      atOnce (fun s => do return ((), ← s.addCommand name value)) := by
  rw [Editing.addCommand, checkOpen_eq, modify_eq, bind_check]
  simp only [Slice.addCommand, bind_assoc, pure_bind]
  rfl

/-- A change that is refused by some slices is done at once. -/
theorem refused_or_set_eq (refuses : Slice → Prop) [DecidablePred refuses] (e : Slice → Failure)
    (f : Slice → Slice) :
    (do
      let s ← get
      if refuses s then throw (e s)
      set (f s) : Editing Unit) =
      atOnce (fun s => if refuses s then .error (e s) else .ok ((), f s)) := by
  funext s
  -- the rest of a block is copied into both branches of a condition without an alternative
  change (if refuses s then throw (e s) >>= fun _ => set (f s) else set (f s) :
    Editing Unit) s = _
  by_cases hrefused : refuses s
  · rw [if_pos hrefused, atOnce_of_error (if_pos hrefused)]
    rfl
  · rw [if_neg hrefused, atOnce_of_ok (if_neg hrefused)]
    rfl

/-- Closing a slice in place closes it. -/
theorem close_eq (endTick : Int) :
    Editing.close endTick = atOnce (fun s => do return ((), ← s.close endTick)) := by
  have hrest := refused_or_set_eq (fun s => endTick ≤ s.beginTick)
    (fun s => .endNotAfterBegin endTick s.beginTick) (fun s => { s with endTick })
  rw [Editing.close, checkOpen_eq, hrest, bind_check]
  congr 1
  funext s
  simp only [Slice.close, bind_assoc]
  congr 1
  funext _
  by_cases hend : endTick ≤ s.beginTick
  · simp [hend]
  · simp [hend]
    rfl

/-- Making sure that there is an event fails before it adds one. -/
theorem eventAt_eq (tick channel : Int) :
    eventAt tick channel = atOnce (fun s => do
      s.checkOpen
      let lane ← Channel.lane channel
      return (lane, s.modifyTimeline lane (Timeline.withEvent tick))) := by
  have hadd : ∀ lane, (do
      modify (Slice.modifyTimeline lane (Timeline.withEvent tick))
      return lane : Editing Channel) =
        atOnce (fun s => .ok (lane, s.modifyTimeline lane (Timeline.withEvent tick))) :=
    fun _ => rfl
  rw [eventAt, checkOpen_eq, lane_eq]
  simp only [hadd]
  rw [bind_check, bind_check]
  rfl

/-- Filling an event that is made sure to be there changes what happens at its tick. -/
theorem fill_eq (tick channel : Int) (f : Event → Event) :
    (do
      let lane ← eventAt tick channel
      modify (Slice.modifyTimeline lane (Timeline.alter tick f)) : Editing Unit) =
      atOnce (fun s => do return ((), ← s.alterEvent tick channel f)) := by
  have hboth : Timeline.alter tick f ∘ Timeline.withEvent tick = Timeline.alter tick f :=
    funext (Timeline.alter_withEvent tick f)
  rw [eventAt_eq]
  simp only [modify_eq]
  rw [bind_total]
  simp only [Slice.alterEvent, bind_assoc, pure_bind, Slice.modifyTimeline_modifyTimeline, hboth]
  rfl

/-- Keeping the strikes inside a slice is done at once. -/
theorem takeStrikes_eq (strikes : Table Int Strikes) :
    Editing.takeStrikes strikes = atOnce (fun s => do
      let s' ← s.takeStrikes strikes
      return (s'.strikes, s')) := by
  have hrest : (do
      let s ← get
      set { s with strikes := s.excerptStrikes strikes }
      return s.excerptStrikes strikes : Editing (Table Int Strikes)) =
        atOnce (fun s => .ok (s.excerptStrikes strikes,
          { s with strikes := s.excerptStrikes strikes })) := rfl
  rw [Editing.takeStrikes, checkOpen_eq, hrest, bind_check]
  simp only [Slice.takeStrikes, bind_assoc, pure_bind]
  rfl

/-- Keeping the presses inside a slice is done at once. -/
theorem takePresses_eq (presses : Table Int (Table Int Presses)) :
    Editing.takePresses presses = atOnce (fun s => do
      let s' ← s.takePresses presses
      return (s'.presses, s')) := by
  have hrest : (do
      let s ← get
      set { s with presses := s.excerptAllPresses presses }
      return s.excerptAllPresses presses : Editing (Table Int (Table Int Presses))) =
        atOnce (fun s => .ok (s.excerptAllPresses presses,
          { s with presses := s.excerptAllPresses presses })) := rfl
  rw [Editing.takePresses, checkOpen_eq, hrest, bind_check]
  simp only [Slice.takePresses, bind_assoc, pure_bind]
  rfl

/-- Changes that cannot fail, made one after the other. -/
theorem forM_modify {ι : Type} (items : List ι) (f : ι → Slice → Slice) (s : Slice) :
    (items.forM (fun i => modify (f i)) : Editing Unit) s =
      .ok () (items.foldl (fun s i => f i s) s) := by
  induction items generalizing s with
  | nil => rfl
  | cons i rest ih => exact ih (f i s)

/-- Sorting the timelines one after the other and then freezing the slice freezes it at once. -/
theorem freeze_eq : Editing.freeze = atOnce (fun s => .ok ((), s.freeze)) := by
  have hsort : ((List.finRange channelCount).forM
      (fun lane => modify (Slice.modifyTimeline lane Timeline.sorted)) : Editing Unit) =
        atOnce (fun s => .ok ((), (List.finRange channelCount).foldl
          (fun s lane => s.modifyTimeline lane Timeline.sorted) s)) := by
    funext s
    rw [forM_modify, atOnce_of_ok rfl]
  rw [Editing.freeze, hsort]
  refine (bind_total (g := fun _ s => ((), { s with frozen := true }))).trans ?_
  refine congrArg atOnce (funext fun s => ?_)
  exact congrArg (fun s' => Except.ok ((), s')) s.frozen_foldl_sorted

namespace Operation

/-- What an operation makes of a slice that is a value, with what it gives back. -/
def effect (s : Slice) : Operation → Except Failure (Answer × Slice)
  | addCommand name value => return (.done, ← s.addCommand name value)
  | close endTick => return (.done, ← s.close endTick)
  | addChange tick channel => return (.done, ← s.addChange tick channel)
  | addNotes tick channel notes => return (.done, ← s.addNotes tick channel notes)
  | takeStrikes strikes => do
    let s' ← s.takeStrikes strikes
    return (.strikes s'.strikes, s')
  | takePresses presses => do
    let s' ← s.takePresses presses
    return (.presses s'.presses, s')
  | freeze => return (.done, s.freeze)
  | ask query => return (← query.answer s, s)

/-- An operation in place does all that it does to a slice as a value, or nothing. -/
theorem run_eq (op : Operation) : op.run = atOnce op.effect := by
  have hdone (f : Slice → Except Failure Slice) :
      (do
        atOnce (fun s => do return ((), ← f s))
        return Answer.done : Editing Answer) = atOnce (fun s => do return (.done, ← f s)) := by
    refine (bind_total (g := fun _ s => (Answer.done, s))).trans ?_
    simp only [bind_assoc, pure_bind]
  cases op with
  | addCommand name value => rw [run, addCommand_eq, hdone]; rfl
  | close endTick => rw [run, close_eq, hdone]; rfl
  | addChange tick channel => rw [run, Editing.addChange, fill_eq, hdone]; rfl
  | addNotes tick channel notes => rw [run, Editing.addNotes, fill_eq, hdone]; rfl
  | takeStrikes strikes =>
    rw [run, takeStrikes_eq]
    refine (bind_total (g := fun a s => (Answer.strikes a, s))).trans ?_
    simp only [bind_assoc, pure_bind]
    rfl
  | takePresses presses =>
    rw [run, takePresses_eq]
    refine (bind_total (g := fun a s => (Answer.presses a, s))).trans ?_
    simp only [bind_assoc, pure_bind]
    rfl
  | freeze =>
    rw [run, freeze_eq]
    rfl
  | ask query =>
    funext s
    cases hanswer : query.answer s with
    | ok answer =>
      have heffect : effect s (ask query) = .ok (answer, s) := by rw [effect, hanswer]; rfl
      rw [atOnce_of_ok heffect]
      change (MonadExcept.ofExcept (query.answer s) : Editing Answer) s = _
      rw [hanswer]
      rfl
    | error e =>
      have heffect : effect s (ask query) = .error e := by rw [effect, hanswer]; rfl
      rw [atOnce_of_error heffect]
      change (MonadExcept.ofExcept (query.answer s) : Editing Answer) s = _
      rw [hanswer]
      rfl

/-! ### What is refused -/

/-- Whether an operation changes slices. Freezing is none: a frozen slice can be frozen again. -/
def changes : Operation → Bool
  | freeze | ask _ => false
  | _ => true

/-- The channel whose timeline an operation looks for. -/
def channel? : Operation → Option Int
  | addChange _ channel => some channel
  | addNotes _ channel _ => some channel
  | ask (.timeline channel) => some channel
  | ask (.hasEvents channel) => some channel
  | _ => none

/-- Why a slice refuses an operation: it is frozen, it would end before it begins, or there is no
such channel. -/
inductive Refused (s : Slice) : Operation → Failure → Prop where
  /-- A frozen slice refuses all changes. -/
  | frozen {op : Operation} : op.changes = true → s.frozen = true →
      Refused s op (.frozen s.beginTick s.endTick)
  /-- A slice has to end after it begins. -/
  | endNotAfterBegin {tick : Int} : s.frozen = false → tick ≤ s.beginTick →
      Refused s (.close tick) (.endNotAfterBegin tick s.beginTick)
  /-- There is no such channel. -/
  | outOfBounds {op : Operation} {channel : Int} : (op.changes = true → s.frozen = false) →
      op.channel? = some channel → ¬ (-channelCount ≤ channel ∧ channel < channelCount) →
      Refused s op .outOfBounds

/-- What the operations that succeed do: they change an open slice, they freeze it, or they leave it
as it is. -/
theorem effect_cases {op : Operation} {s s' : Slice} {answer : Answer}
    (h : op.effect s = .ok (answer, s')) : s.ChangedTo s' ∨ s' = s.freeze ∨ s' = s := by
  cases op with
  | freeze =>
    cases h
    exact Or.inr (Or.inl rfl)
  | ask query =>
    obtain ⟨a, _, ha⟩ := bind_eq_ok.mp h
    cases ha
    exact Or.inr (Or.inr rfl)
  | addCommand name value =>
    obtain ⟨s₁, hdone, heq⟩ := bind_eq_ok.mp h
    cases heq
    exact Or.inl (Slice.changedTo_addCommand hdone)
  | close endTick =>
    obtain ⟨s₁, hdone, heq⟩ := bind_eq_ok.mp h
    cases heq
    exact Or.inl (Slice.changedTo_close hdone)
  | addChange tick channel =>
    obtain ⟨s₁, hdone, heq⟩ := bind_eq_ok.mp h
    cases heq
    exact Or.inl (Slice.changedTo_alterEvent hdone)
  | addNotes tick channel notes =>
    obtain ⟨s₁, hdone, heq⟩ := bind_eq_ok.mp h
    cases heq
    exact Or.inl (Slice.changedTo_alterEvent hdone)
  | takeStrikes strikes =>
    obtain ⟨s₁, hdone, heq⟩ := bind_eq_ok.mp h
    cases heq
    exact Or.inl (Slice.changedTo_takeStrikes hdone)
  | takePresses presses =>
    obtain ⟨s₁, hdone, heq⟩ := bind_eq_ok.mp h
    cases heq
    exact Or.inl (Slice.changedTo_takePresses hdone)

/-- An operation that changes slices fails on a frozen one. -/
theorem effect_of_frozen {op : Operation} (hchanges : op.changes = true) {s : Slice}
    (hfrozen : s.frozen = true) : op.effect s = .error (.frozen s.beginTick s.endTick) := by
  cases op with
  | freeze => cases hchanges
  | ask query => cases hchanges
  | addCommand name value => exact bind_eq_error.mpr (Or.inl (Slice.checked_of_frozen hfrozen))
  | close endTick => exact bind_eq_error.mpr (Or.inl (Slice.checked_of_frozen hfrozen))
  | addChange tick channel => exact bind_eq_error.mpr (Or.inl (Slice.checked_of_frozen hfrozen))
  | addNotes tick channel notes =>
    exact bind_eq_error.mpr (Or.inl (Slice.checked_of_frozen hfrozen))
  | takeStrikes strikes => exact bind_eq_error.mpr (Or.inl (Slice.checked_of_frozen hfrozen))
  | takePresses presses => exact bind_eq_error.mpr (Or.inl (Slice.checked_of_frozen hfrozen))

/-- Looking for a timeline fails exactly when there is no such channel. -/
theorem timeline_eq_error {s : Slice} {channel : Int} {e : Failure} :
    s.timeline channel = .error e ↔
      e = .outOfBounds ∧ ¬ (-channelCount ≤ channel ∧ channel < channelCount) := by
  rw [Slice.timeline, bind_eq_error, Channel.lane_eq_error]
  refine or_iff_left ?_
  rintro ⟨lane, _, hlane⟩
  cases hlane

/-- A change of what happens at a tick fails when the slice is frozen or there is no such
channel. -/
theorem alterEvent_eq_error {s : Slice} {tick channel : Int} {f : Event → Event} {e : Failure} :
    s.alterEvent tick channel f = .error e ↔
      s.frozen = true ∧ e = .frozen s.beginTick s.endTick ∨
      s.frozen = false ∧ e = .outOfBounds ∧
        ¬ (-channelCount ≤ channel ∧ channel < channelCount) := by
  rw [Slice.alterEvent, Slice.checked_eq_error, bind_eq_error, Channel.lane_eq_error]
  simp [pure, Except.pure]

/-- A slice is not closed when it is frozen or would end before it begins. -/
theorem close_eq_error {s : Slice} {endTick : Int} {e : Failure} :
    s.close endTick = .error e ↔
      s.frozen = true ∧ e = .frozen s.beginTick s.endTick ∨
      s.frozen = false ∧ endTick ≤ s.beginTick ∧ e = .endNotAfterBegin endTick s.beginTick := by
  rw [Slice.close, Slice.checked_eq_error]
  by_cases hend : endTick ≤ s.beginTick
  · simp [hend, bind, Except.bind, @eq_comm _ e]
  · simp [hend, pure, Except.pure]

/-- A question is refused when it is about a channel that there is not. -/
theorem answer_eq_error {s : Slice} {query : Query} {e : Failure} :
    query.answer s = .error e ↔ ∃ channel, (ask query).channel? = some channel ∧
      e = .outOfBounds ∧ ¬ (-channelCount ≤ channel ∧ channel < channelCount) := by
  have hasked {α : Type} (channel : Int) (x : Except Failure α) (f : α → Answer)
      (hx : x = .error e ↔
        e = .outOfBounds ∧ ¬ (-channelCount ≤ channel ∧ channel < channelCount)) :
      (x >>= fun a => pure (f a)) = .error e ↔ ∃ c, some channel = some c ∧
        e = .outOfBounds ∧ ¬ (-channelCount ≤ c ∧ c < channelCount) := by
    constructor
    · intro h
      rcases bind_eq_error.mp h with hfails | ⟨a, _, hpure⟩
      · exact ⟨channel, rfl, hx.mp hfails⟩
      · cases hpure
    · rintro ⟨c, hc, hrefused⟩
      cases hc
      exact bind_eq_error.mpr (Or.inl (hx.mpr hrefused))
  cases query with
  | timeline channel => exact hasked channel _ _ timeline_eq_error
  | hasEvents channel =>
    refine hasked channel _ _ ?_
    rw [Slice.hasEvents, bind_eq_error, timeline_eq_error]
    refine or_iff_left ?_
    rintro ⟨t, _, ht⟩
    cases ht
  | _ => simp [Query.answer, channel?, pure, Except.pure]

/-- Operations fail exactly when they are refused. -/
theorem effect_eq_error {op : Operation} {s : Slice} {e : Failure} :
    op.effect s = .error e ↔ Refused s op e := by
  have hdone {α : Type} (x : Except Failure α) (f : α → Answer × Slice) :
      (x >>= fun a => pure (f a)) = .error e ↔ x = .error e := by
    rw [bind_eq_error]
    simp [pure, Except.pure]
  constructor
  · intro h
    cases op with
    | freeze => cases h
    | ask query =>
      obtain ⟨channel, hchannel, rfl, hno⟩ := answer_eq_error.mp ((hdone _ _).mp h)
      exact .outOfBounds (fun hchanges => (nomatch hchanges)) hchannel hno
    | addCommand name value =>
      rcases Slice.checked_eq_error.mp ((hdone _ _).mp h) with ⟨hfrozen, rfl⟩ | ⟨_, hrest⟩
      · exact .frozen rfl hfrozen
      · cases hrest
    | close endTick =>
      rcases close_eq_error.mp ((hdone _ _).mp h) with ⟨hfrozen, rfl⟩ | ⟨hopen, hend, rfl⟩
      · exact .frozen rfl hfrozen
      · exact .endNotAfterBegin hopen hend
    | addChange tick channel =>
      rcases alterEvent_eq_error.mp ((hdone _ _).mp h) with ⟨hfrozen, rfl⟩ | ⟨hopen, rfl, hno⟩
      · exact .frozen rfl hfrozen
      · exact .outOfBounds (fun _ => hopen) rfl hno
    | addNotes tick channel notes =>
      rcases alterEvent_eq_error.mp ((hdone _ _).mp h) with ⟨hfrozen, rfl⟩ | ⟨hopen, rfl, hno⟩
      · exact .frozen rfl hfrozen
      · exact .outOfBounds (fun _ => hopen) rfl hno
    | takeStrikes strikes =>
      rcases Slice.checked_eq_error.mp ((hdone _ _).mp h) with ⟨hfrozen, rfl⟩ | ⟨_, hrest⟩
      · exact .frozen rfl hfrozen
      · cases hrest
    | takePresses presses =>
      rcases Slice.checked_eq_error.mp ((hdone _ _).mp h) with ⟨hfrozen, rfl⟩ | ⟨_, hrest⟩
      · exact .frozen rfl hfrozen
      · cases hrest
  · intro h
    cases h with
    | frozen hchanges hfrozen => exact effect_of_frozen hchanges hfrozen
    | endNotAfterBegin hopen hend =>
      exact (hdone _ _).mpr (close_eq_error.mpr (Or.inr ⟨hopen, hend, rfl⟩))
    | @outOfBounds _ channel hopen hchannel hno =>
      cases op with
      | addChange tick c =>
        cases hchannel
        exact (hdone _ _).mpr (alterEvent_eq_error.mpr (Or.inr ⟨hopen rfl, rfl, hno⟩))
      | addNotes tick c notes =>
        cases hchannel
        exact (hdone _ _).mpr (alterEvent_eq_error.mpr (Or.inr ⟨hopen rfl, rfl, hno⟩))
      | ask query =>
        exact (hdone _ _).mpr (answer_eq_error.mpr ⟨channel, hchannel, rfl, hno⟩)
      | _ => cases hchannel

/-! ### Histories of operations -/

/-- An operation that fails leaves the slice as it was. -/
theorem run_eq_error {op : Operation} {s s' : Slice} {e : Failure} :
    op.run s = .error e s' ↔ s' = s ∧ Refused s op e := by
  rw [run_eq, ← effect_eq_error, atOnce]
  cases heffect : op.effect s with
  | ok result => simp
  | error e' => simp [eq_comm, and_comm]

/-- An operation that succeeds leaves its effect behind. -/
theorem after_of_ok {op : Operation} {s s' : Slice} {answer : Answer}
    (h : op.effect s = .ok (answer, s')) : op.after s = s' := by
  rw [after, run_eq, atOnce_of_ok h]

/-- The slice after an operation is what its effect gives, or the same slice. -/
theorem after_cases (s : Slice) (op : Operation) :
    (∃ answer, op.effect s = .ok (answer, op.after s)) ∨ op.after s = s := by
  cases heffect : op.effect s with
  | ok result => exact Or.inl ⟨result.1, by rw [after_of_ok heffect]⟩
  | error e => exact Or.inr (by rw [after, run_eq, atOnce_of_error heffect])

end Operation

/-- A history does its first operation and then the other ones. -/
theorem after_cons (s : Slice) (op : Operation) (rest : List Operation) :
    after s (op :: rest) = after (op.after s) rest :=
  rfl

end Editing

namespace Slice

open Editing (Operation Query)

/-- A slice that begins at a tick, ends nowhere yet or after this tick, and whose timelines ascend
once it is frozen. -/
structure Sound (beginTick : Int) (s : Slice) : Prop where
  /-- The slice begins at the tick. -/
  beginTick_eq : s.beginTick = beginTick
  /-- The slice ends nowhere yet or after the tick. -/
  endTick_cases : s.endTick = -1 ∨ beginTick < s.endTick
  /-- The timelines ascend once the slice is frozen. -/
  ascending : s.frozen = true →
    ∀ lane, (s.timelines.get lane).Pairwise (fun a b => a.1 < b.1)

variable {beginTick : Int} {s s₀ : Slice}

/-- A new slice is sound. -/
theorem sound_new (h : Slice.new beginTick = .ok s) : s.Sound beginTick := by
  unfold Slice.new at h
  split at h
  · cases h
  · cases h
    exact ⟨rfl, Or.inl rfl, fun hfrozen => (nomatch hfrozen)⟩

/-- Operations keep a slice sound. -/
theorem Sound.after (h : s.Sound beginTick) (op : Operation) : (op.after s).Sound beginTick := by
  rcases op.after_cases s with ⟨answer, heffect⟩ | hsame
  · rcases Operation.effect_cases heffect with hchanged | hfrozen | hsame
    · have hends : (op.after s).endTick = -1 ∨ beginTick < (op.after s).endTick := by
        rcases hchanged.endTick with hend | hend
        · rw [hend]
          exact h.endTick_cases
        · exact Or.inr (h.beginTick_eq ▸ hend)
      refine ⟨hchanged.beginTick.trans h.beginTick_eq, hends, fun hfrozen => ?_⟩
      rw [hchanged.isOpen] at hfrozen
      cases hfrozen
    · rw [hfrozen]
      exact ⟨h.beginTick_eq, h.endTick_cases, fun _ => freeze_ascending s⟩
    · rw [hsame]
      exact h
  · rw [hsame]
    exact h

/-- No operation changes a sound slice that is frozen. -/
theorem Sound.after_of_frozen (h : s.Sound beginTick) (hfrozen : s.frozen = true)
    (op : Operation) : op.after s = s := by
  rcases op.after_cases s with ⟨answer, heffect⟩ | hsame
  · rcases Operation.effect_cases heffect with hchanged | hfreeze | hsame
    · have hopen := hchanged.wasOpen
      rw [hfrozen] at hopen
      cases hopen
    · rw [hfreeze]
      exact freeze_eq_self hfrozen (h.ascending hfrozen)
    · exact hsame
  · exact hsame

/-- A history of operations keeps a slice sound. -/
theorem Sound.afterAll (h : s.Sound beginTick) (ops : List Operation) :
    (Editing.after s ops).Sound beginTick := by
  induction ops generalizing s with
  | nil => exact h
  | cons op rest ih => exact ih (h.after op)

/-- No history of operations changes a sound slice that is frozen. -/
theorem Sound.afterAll_of_frozen (h : s.Sound beginTick) (hfrozen : s.frozen = true)
    (ops : List Operation) : Editing.after s ops = s := by
  induction ops with
  | nil => rfl
  | cons op rest ih =>
    rw [Editing.after_cons, h.after_of_frozen hfrozen op, ih]

/-- After a history in which it was frozen once, a sound slice is frozen. -/
theorem Sound.frozen_afterAll (h : s.Sound beginTick) {ops : List Operation}
    (hmem : Operation.freeze ∈ ops) : (Editing.after s ops).frozen = true := by
  induction ops generalizing s with
  | nil => cases hmem
  | cons op rest ih =>
    rcases List.mem_cons.mp hmem with rfl | hrest
    · have hfreeze : Operation.freeze.after s = s.freeze :=
        Operation.after_of_ok (show Operation.freeze.effect s = .ok (.done, s.freeze) from rfl)
      have hsound := h.after .freeze
      rw [hfreeze] at hsound
      rw [Editing.after_cons, hfreeze, hsound.afterAll_of_frozen s.frozen_freeze rest]
      exact s.frozen_freeze
    · exact ih (h.after op) hrest

/-- **A frozen slice never changes, and a failed operation leaves no trace.** After every history of
operations on a new slice the slice begins where it did and ends nowhere yet or after its begin, and
an operation fails exactly when the slice is frozen, would end before it begins, or has no such
channel; it then leaves the slice as it is. Once the slice was frozen, all changes fail, freezing
it again does nothing, its timelines ascend, and no later history changes it or what it answers. -/
theorem frozen_forever (hnew : Slice.new beginTick = .ok s₀) {ops : List Operation}
    (hs : Editing.after s₀ ops = s) :
    s.beginTick = beginTick ∧ (s.endTick = -1 ∨ beginTick < s.endTick) ∧
    (∀ (op : Operation) (e : Failure) (s' : Slice),
      op.run s = .error e s' ↔ s' = s ∧ Operation.Refused s op e) ∧
    (Operation.freeze ∈ ops →
      (∀ op : Operation, op.changes = true →
        op.run s = .error (.frozen s.beginTick s.endTick) s) ∧
      Operation.freeze.run s = .ok .done s ∧
      (∀ lane, (s.timelines.get lane).Pairwise (fun a b => a.1 < b.1)) ∧
      ∀ later : List Operation, Editing.after s later = s ∧
        ∀ query : Query, (Operation.ask query).run (Editing.after s later) =
          (Operation.ask query).run s) := by
  have hsound : s.Sound beginTick := hs ▸ (sound_new hnew).afterAll ops
  refine ⟨hsound.beginTick_eq, hsound.endTick_cases, fun op e s' => Operation.run_eq_error,
    fun hmem => ?_⟩
  have hfrozen : s.frozen = true := hs ▸ (sound_new hnew).frozen_afterAll hmem
  refine ⟨fun op hchanges => ?_, ?_, hsound.ascending hfrozen, fun later => ?_⟩
  · exact Operation.run_eq_error.mpr ⟨rfl, .frozen hchanges hfrozen⟩
  · have heffect : Operation.freeze.effect s = .ok (.done, s) := by
      rw [Operation.effect, freeze_eq_self hfrozen (hsound.ascending hfrozen)]
      rfl
    rw [Operation.run_eq, Editing.atOnce_of_ok heffect]
  · have hsame := hsound.afterAll_of_frozen hfrozen later
    exact ⟨hsame, fun query => by rw [hsame]⟩

/-- A slice from 3 to 10 that was not closed at 2 and has no channel 16. Once it is frozen, its
changes are in order and it takes no note. -/
theorem frozen_forever_closed :
    ∃ s, Editing.after { beginTick := 3 }
        [.close 10, .addChange 7 0, .close 2, .addChange 5 0, .addChange 4 16, .freeze] = s ∧
      s.timelines.get 0 = [(5, { change := true }), (7, { change := true })] ∧
      (Operation.addNotes 4 0 .empty).run s = .error (.frozen 3 10) s := by
  refine ⟨_, rfl, by decide +kernel, ?_⟩
  have hnew : Slice.new 3 = .ok { beginTick := 3 } := rfl
  have hops : Operation.freeze ∈ [.close 10, .addChange 7 0, .close 2, .addChange 5 0,
    .addChange 4 16, .freeze] := by simp
  have hrefused := ((frozen_forever hnew rfl).2.2.2 hops).1 (.addNotes 4 0 .empty) rfl
  exact hrefused

end Slice

end Transcription
