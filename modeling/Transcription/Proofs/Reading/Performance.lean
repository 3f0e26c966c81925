import Mathlib.Data.List.Induction
import Transcription.Proofs.Reading.Sounding

/-!
# Performing actions under the eyes of a reader

Every action of the writing succeeds, a reader of the score keeps agreeing with it, and what the
action does to the clocks of the parts is known. So whatever is shown to survive every action holds
at every point of a run.
-/

namespace Transcription

open Writing

/-- A part passes through a chord: it enters it, sounds it and leaves it. The other parts stay where
they are. -/
structure Passes (t : LengthTables) (c : Chord) (id : PartId) (s : Score) (R : Reading)
    (entered s' : Score) (R' : Reading) : Prop where
  channel : id.channel = c.channel
  current : s'.current = some id
  slice : s'.slice = s.slice
  marks : ∀ n, R'.mark? n = R.mark? n
  heard : R'.heard = R.heard ++ [⟨id, (c.entry t s R id).position, c.sounds t⟩]
  cursor : (entered.part id).cursor = (c.entry t s R id).cursor
  due : entered.tries = s.tries +
    if ((clock s R id).jumpTo c.slice.beginTick (R.mark? s.slice)).cursor < c.tick then 1 else 0
  tries : entered.tries ≤ s'.tries
  rested : (c.rest? t).isSome → s'.tries = entered.tries + 1
  left : clock s' R' id =
    ⟨max (c.entry t s R id).cursor (c.leave t), (c.entry t s R id).position + c.lasting t⟩
  others : ∀ id', id' ≠ id → clock s' R' id' = clock s R id'

/-- The line of a valid chord is legible. -/
theorem legible_chord {t : LengthTables} (ht : t.Proper) {c : Chord} (hc : c.Valid t)
    {jump : Option Int} {gap : Int} {attributes : List Attribute} {key : KeySignature}
    {part : PartState} :
    (Line.chord
      { jump
        gap := t.restText? gap
        attributes
        elements := PartState.elements key.fifths c.tones part ++
          ((c.rest? t).map Element.rest).toList }).Legible := by
  refine ⟨fun length hlength => (ht.ticks?_restText hlength).2, fun e he => ?_, ?_⟩
  · rcases List.mem_append.mp he with hnote | hrest
    · exact PartState.legible_elements key hc.fits part e hnote
    · obtain ⟨length, hlength, rfl⟩ := Option.map_eq_some_iff.mp (Option.mem_toList.mp hrest)
      obtain ⟨_, htext, _⟩ := Chord.leave_of_rest hlength
      exact (ht.ticks?_restText htext).2
  · obtain ⟨tone, rest, htones⟩ := List.exists_cons_of_ne_nil hc.nonempty
    rw [htones]
    exact ⟨_, _, _, _, rfl⟩

namespace Agrees

variable {p : Plan} {s : Score} {R : Reading}

/-- Counting the notes of a chord moves nobody. -/
theorem countTones {t : LengthTables} (h : Agrees t s R) (c : Chord) :
    Agrees t (s.countTones c.channel.val c.tick c.tones) R ∧
      Still s R (s.countTones c.channel.val c.tick c.tones) R := by
  have halters := Score.countTones_alters c.channel.val c.tick c.tones ⟨c.channel, 0⟩ s
  have hroster : (s.countTones c.channel.val c.tick c.tones).roster = s.roster :=
    halters.roster.trans (Roster.modify_self rfl)
  refine ⟨h.congr halters.lines hroster halters.lanes halters.current halters.key halters.markers,
    halters.slice, halters.tries.trans (Int.add_zero _), rfl, fun _ => rfl, fun id => ?_⟩
  rw [clock, clock, Score.part, hroster, Score.part]

/-- The part for a chord is selected, and nobody is moved. -/
theorem partFor (h : Agrees p.tables s R) (hp : p.Proper) (channel : Channel) (tick : Int) :
    ∃ id s' R', id.channel = channel ∧
      Writes (Writing.partFor p channel.val channel tick) s id s' ∧
      Agrees p.tables s' R' ∧ Still s R s' R' ∧ s'.current = some id := by
  obtain ⟨id, s', hwrites, hcases⟩ := writes_partFor hp channel tick s
  rcases hcases with ⟨rfl, hcurrent, hlane⟩ | ⟨hpart, rfl⟩
  · exact ⟨id, s', R, (h.lanes channel id hlane).1, hwrites, h, Still.refl s' R, hcurrent⟩
  · exact ⟨id, _, _, hpart ▸ rfl, hwrites, h.change id, still_change s R id, rfl⟩

/-- A valid chord is written, and the reader hears it. -/
theorem chord (h : Agrees p.tables s R) (hp : p.Proper) {c : Chord} (hc : c.Valid p.tables) :
    ∃ id jump gap entered s' R', Writes (enter p c) s (id, jump, gap) entered ∧
      Writes (sound p c id jump gap) entered () s' ∧ Agrees p.tables s' R' ∧
      Passes p.tables c id s R entered s' R' := by
  obtain ⟨hcounted, hstill₀⟩ := h.countTones c
  obtain ⟨id, s₁, R₁, hchannel, hpart, hagrees, hstill₁, hcurrent⟩ :=
    hcounted.partFor hp c.channel c.tick
  have hstill := hstill₀.trans hstill₁
  have hid := hagrees.selected id hcurrent
  obtain ⟨entered, henter, hentered⟩ := writes_enter hpart hid
  have hid' : id ∈ entered.roster.ids := hentered.ids ▸ hid
  have hself : entered.part id = c.entering p.tables id s₁ := hentered.part_self hid
  have htones : ∀ tone ∈ c.tones, tone.InRange := fun tone htone => (hc.fits tone htone).inRange
  obtain ⟨s', hsound, hsounds⟩ := writes_sound (p := p) htones hid'
    (c.jump? id s₁) (p.tables.restText? (c.tick - c.landing id s₁))
  obtain ⟨attributes, hlines⟩ := hsounds.line
  rw [hentered.lines, hentered.key, hself] at hlines
  have hline := hagrees.chord?_line hp.tables hcurrent hc attributes
  have hagrees' := hagrees.sing hid (legible_chord hp.tables hc) hline hlines
    (hsounds.ids.trans hentered.ids) (hsounds.lanes.trans hentered.lanes)
    (hsounds.current.trans hentered.current) (hsounds.key.trans hentered.key)
    (hsounds.markers.trans hentered.markers)
    (fun id' hne => by rw [hsounds.others id' hne, hentered.part_eq hid, if_neg hne])
    (by rw [hsounds.octave, hself]; rfl) (by rw [hsounds.length, hself]; rfl)
  obtain ⟨_, hcursor, hlanding⟩ := hagrees.entry hp.tables c id
  have hentry : c.entry p.tables s₁ R₁ id = c.entry p.tables s R id := by
    rw [Chord.entry, Chord.entry, hstill.clocks, hstill.slice, hstill.marks]
  rw [hstill.clocks, hstill.slice, hstill.marks] at hlanding
  rw [hentry, ← hself] at hcursor
  rw [hentry] at hagrees'
  refine ⟨id, _, _, entered, s', _, henter, hsound, hagrees', hchannel, ?_, ?_, hstill.marks, ?_,
    hcursor, ?_, hsounds.tries, hsounds.rested, ?_, fun id' hne => ?_⟩
  · rw [hsounds.current, hentered.current, hcurrent]
  · rw [hsounds.slice, hentered.slice, hstill.slice]
  · rw [hstill.heard]
  · rw [hentered.tries, hstill.tries, hlanding]
  · rw [clock, hsounds.cursor, hcursor]
    simp [Reading.update, Chord.leaving]
  · rw [← hstill.clocks, clock, clock, hsounds.others id' hne, hentered.part_eq hid, if_neg hne]
    simp [Reading.update, hne]

end Agrees

/-! ### Actions and runs -/

namespace Action

/-- An action that can be performed: its chord is valid, if it writes one. -/
def Valid (t : LengthTables) : Action → Prop
  | chord c => c.Valid t
  | _ => True

/-- What an action does to the clocks of the parts and to what is heard. -/
def Effect (p : Plan) (s : Score) (R : Reading) (s' : Score) (R' : Reading) : Action → Prop
  | beginSlice slice number => Begins p.tables slice.beginTick number s R s' R'
  | chord c => ∃ id jump gap entered, Writes (enter p c) s (id, jump, gap) entered ∧
      Passes p.tables c id s R entered s' R'
  | _ => Still s R s' R'

end Action

namespace Agrees

variable {p : Plan} {s : Score} {R : Reading}

/-- A run of actions and one more action. -/
theorem writes_append {before : List Action} {a : Action} {s s₁ s' : Score}
    (hbefore : Writes (before.forM (Action.write p)) s () s₁)
    (ha : Writes (a.write p) s₁ () s') :
    Writes ((before ++ [a]).forM (Action.write p)) s () s' := by
  simp only [List.forM_eq_forM] at hbefore ⊢
  rw [List.forM_append, List.forM_cons, List.forM_nil]
  exact Writes.bind hbefore (Writes.bind ha (Writes.pure () s'))

/-- Every valid action is performed with its effect, and the reader keeps agreeing. -/
theorem perform (h : Agrees p.tables s R) (hp : p.Proper) {a : Action} (ha : a.Valid p.tables) :
    ∃ s' R', Writes (a.write p) s () s' ∧ Agrees p.tables s' R' ∧ a.Effect p s R s' R' := by
  cases a with
  | beginSlice slice number =>
    obtain ⟨R', hagrees, hbegins⟩ := h.beginSlice hp slice number
    exact ⟨_, R', Writes.act _ s, hagrees, hbegins⟩
  | globals slice =>
    obtain ⟨R', hagrees, hstill⟩ := h.addGlobals slice
    exact ⟨_, R', Writes.act _ s, hagrees, hstill⟩
  | blank => exact ⟨_, R, Writes.act _ s, h.addSilent trivial rfl, Still.addLine .blank R⟩
  | change channel tick =>
    have hwrites := writes_changePart hp channel tick s
    exact ⟨_, _, Writes.bind hwrites (Writes.pure () _), h.change _, still_change s R _⟩
  | chord c =>
    obtain ⟨id, jump, gap, entered, s', R', henter, hsound, hagrees, hpasses⟩ := h.chord hp ha
    exact ⟨s', R', writes_chord henter hsound, hagrees, id, jump, gap, entered, henter, hpasses⟩

/-- The first action of a run is performed with its effect, and the others follow. -/
theorem first (h : Agrees p.tables s R) (hp : p.Proper) {a : Action} {rest : List Action}
    (ha : a.Valid p.tables) {s' : Score}
    (hwrite : Writes ((a :: rest).forM (Action.write p)) s () s') :
    ∃ s₁ R₁, Writes (a.write p) s () s₁ ∧ Writes (rest.forM (Action.write p)) s₁ () s' ∧
      Agrees p.tables s₁ R₁ ∧ a.Effect p s R s₁ R₁ := by
  obtain ⟨_, s₁, hfirst, hrest⟩ := hwrite.exists_bind
  obtain ⟨_, R₁, hwrite₁, hagrees, heffect⟩ := h.perform hp ha
  obtain ⟨_, rfl⟩ := hfirst.unique hwrite₁
  exact ⟨s₁, R₁, hfirst, hrest, hagrees, heffect⟩

/-- What every action preserves holds after each part of a run. The invariant may speak of the
actions that remain. -/
theorem run (hp : p.Proper) {actions : List Action} (hvalid : ∀ a ∈ actions, a.Valid p.tables)
    {Inv : Score → Reading → List Action → Prop} (hstart : Inv {} {} actions)
    (hstep : ∀ {before a rest s R s' R'}, actions = before ++ a :: rest →
      Writes (before.forM (Action.write p)) {} () s → Inv s R (a :: rest) →
      Writes (a.write p) s () s' → Agrees p.tables s' R' → a.Effect p s R s' R' → Inv s' R' rest)
    {before after : List Action} (hsplit : actions = before ++ after) :
    ∃ s R, Writes (before.forM (Action.write p)) {} () s ∧ Agrees p.tables s R ∧
      Inv s R after := by
  induction before using List.reverseRecOn generalizing after with
  | nil =>
    rw [List.nil_append] at hsplit
    exact ⟨{}, {}, Writes.pure () {}, Agrees.start p.tables, hsplit ▸ hstart⟩
  | append_singleton before a ih =>
    rw [List.append_assoc, List.singleton_append] at hsplit
    obtain ⟨s, R, hbefore, hagrees, hinv⟩ := ih hsplit
    obtain ⟨s', R', hwrite, hagrees', heffect⟩ :=
      hagrees.perform hp (hvalid a (by rw [hsplit]; simp))
    exact ⟨s', R', writes_append hbefore hwrite, hagrees',
      hstep hsplit hbefore hinv hwrite hagrees' heffect⟩

/-- What every action preserves holds after each part of a run. Here the invariant speaks of the
actions that are done, and a step may use that the reader agrees before it. -/
theorem run_done (hp : p.Proper) {actions : List Action}
    (hvalid : ∀ a ∈ actions, a.Valid p.tables) {Inv : List Action → Score → Reading → Prop}
    (hstart : Inv [] {} {})
    (hstep : ∀ {before a rest s R s' R'}, actions = before ++ a :: rest → Agrees p.tables s R →
      Inv before s R → Writes (a.write p) s () s' → Agrees p.tables s' R' →
      a.Effect p s R s' R' → Inv (before ++ [a]) s' R')
    {before after : List Action} (hsplit : actions = before ++ after) :
    ∃ s R, Writes (before.forM (Action.write p)) {} () s ∧ Agrees p.tables s R ∧
      Inv before s R := by
  let Done (s : Score) (R : Reading) (rest : List Action) : Prop :=
    Agrees p.tables s R ∧ ∃ before, actions = before ++ rest ∧ Inv before s R
  obtain ⟨s, R, hwrite, hagrees, _, before', hsplit', hinv⟩ := @run p hp _ hvalid Done
    ⟨Agrees.start p.tables, [], rfl, hstart⟩
    (fun {_ a rest _ _ _ _} hsplit _ hdone hwrite hagrees' heffect => by
      obtain ⟨hagrees, before', hsplit', hinv⟩ := hdone
      refine ⟨hagrees', before' ++ [a], by simpa using hsplit', ?_⟩
      exact hstep hsplit' hagrees hinv hwrite hagrees' heffect) _ _ hsplit
  rw [List.append_cancel_right (hsplit'.symm.trans hsplit)] at hinv
  exact ⟨s, R, hwrite, hagrees, hinv⟩

end Agrees

/-! ### Reading texts -/

namespace Reading

/-- Read the text of one more line. -/
def text? (t : LengthTables) (R : Reading) (text : String) : Option Reading :=
  (Line.read? text).bind (R.line? t)

/-- Read the texts of lines from the start. -/
def ofTexts? (t : LengthTables) (texts : List String) : Option Reading :=
  texts.foldlM (fun R text => R.text? t text) {}

end Reading

/-- To read lines from their texts and do something with each is to do this with the lines. -/
theorem Line.foldlM_read {β : Type} {lines : List Line} (h : ∀ l ∈ lines, l.Legible)
    (f : β → Line → Option β) (b : β) :
    lines.foldlM (fun b l => (Line.read? l.text).bind (f b)) b = lines.foldlM f b := by
  induction lines generalizing b with
  | nil => rfl
  | cons l rest ih =>
    rw [List.foldlM_cons, List.foldlM_cons, Line.read?_text (h l List.mem_cons_self),
      Option.bind_some]
    refine congrArg _ (funext fun b' => ?_)
    exact ih (fun l' hl' => h l' (List.mem_cons_of_mem _ hl')) b'

/-- A reader that agrees with a score has read it from its text. -/
theorem Agrees.ofTexts? {t : LengthTables} {s : Score} {R : Reading} (h : Agrees t s R) :
    Reading.ofTexts? t (s.lines.toList.map Line.text) = some R := by
  have hlegible : ∀ l ∈ s.lines.toList, l.Legible := fun l hl =>
    h.legible l (Array.mem_toList_iff.mp hl)
  have hread := Line.foldlM_read hlegible (fun (R : Reading) l => R.line? t l) {}
  rw [Reading.ofTexts?, List.foldlM_map]
  exact hread.trans h.reads

/-! ### Runs and their readings -/

/-- Some actions write a score, and a reader makes something of its text. -/
def Plan.Reads (p : Plan) (actions : List Action) (s : Score) (R : Reading) : Prop :=
  (actions.forM (Action.write p)).run {} = .ok () s ∧
    Reading.ofTexts? p.tables (s.lines.toList.map Line.text) = some R

/-- There is one score and one reading of it after some actions. -/
theorem Plan.Reads.unique {p : Plan} {actions : List Action} {s s' : Score} {R R' : Reading}
    (h : p.Reads actions s R) (h' : p.Reads actions s' R') : s' = s ∧ R' = R := by
  obtain ⟨_, hscore⟩ := Writes.unique h.1 h'.1
  subst hscore
  exact ⟨rfl, Option.some.inj (h'.2.symm.trans h.2)⟩

end Transcription
