import Transcription.Proofs.Score.Stable

/-!
# Keys in force

Only the global settings of a slice change the key in force, and only they warn of what is no key
signature. So the warnings of this kind can be told from the texts of the keys: one for each text
that is refused, which names the key that stays in force.
-/

namespace Transcription

/-! ### Warnings of keys -/

/-- The texts of the keys of a recording, by the ticks at which slices begin. -/
def Recording.keyTexts (r : Recording) : List (Int × String) :=
  r.boundaries.filterMap
    (fun tick => ((r.commandsAt tick).get? keyCommand).map (fun text => (tick, text)))

/-- The text of the key of a slice, if the slice has one. -/
def Slice.keyText? (s : Slice) : Option (Int × String) :=
  (s.globals.get? keyCommand).map (fun text => (s.beginTick, text))

/-- The warning that a text is no key, while another key is in force. -/
def KeySignature.warning (key : KeySignature) (tick : Int) (e : Failure) : Warning where
  kind := .invalidKeySignature
  message := e.message ++ "; keeping " ++ key.descriptor
  tick := some tick

/-- The warnings of texts that are no keys, one for each of them. A text that is a key is in force
from there on. -/
def KeySignature.warnings (key : KeySignature) : List (Int × String) → List Warning
  | [] => []
  | (tick, text) :: rest =>
    match KeySignature.read text with
    | .ok next => next.warnings rest
    | .error e => key.warning tick e :: key.warnings rest

/-- The key in force after some texts. -/
def KeySignature.after (key : KeySignature) (texts : List (Int × String)) : KeySignature :=
  texts.foldl (fun key e => (KeySignature.read e.2).toOption.getD key) key

/-- The warnings of some texts and of further ones. -/
theorem KeySignature.warnings_append (key : KeySignature) (texts more : List (Int × String)) :
    key.warnings (texts ++ more) = key.warnings texts ++ (key.after texts).warnings more := by
  induction texts generalizing key with
  | nil => rfl
  | cons e rest ih =>
    obtain ⟨tick, text⟩ := e
    rw [List.cons_append, warnings, warnings, after, List.foldl_cons]
    cases hread : KeySignature.read text with
    | ok next => exact ih next
    | error e => exact congrArg (key.warning tick e :: ·) (ih key)

namespace Score

variable {s s' : Score}

/-- What was warned of keys so far. -/
def keyWarnings (s : Score) : List Warning :=
  s.warnings.filter (fun w => w.kind = .invalidKeySignature)

/-- Two scores with the same key in force and the same warnings of keys. -/
structure SameKeys (s s' : Score) : Prop where
  key : s'.key = s.key
  warnings : s'.keyWarnings = s.keyWarnings

/-- Only global settings change the key in force or warn of keys. -/
theorem SameKeys.stable : Stable SameKeys where
  trans h h' := ⟨h'.key.trans h.key, h'.warnings.trans h.warnings⟩
  move _ hkey hnotices := by
    refine ⟨hkey, ?_⟩
    rw [keyWarnings, keyWarnings, Score.warnings, Score.warnings, hnotices]
  addLine _ _ _ := ⟨rfl, rfl⟩
  addNotice s notice hnotice := by
    have hnone : notice.warning?.toList.filter (fun w => w.kind = .invalidKeySignature) = [] := by
      cases notice with
      | noMarker tick slice => rfl
      | warning w => simp [Notice.warning?, hnotice w rfl]
    refine ⟨rfl, ?_⟩
    rw [keyWarnings, warnings_addNotice, List.filter_append, hnone, List.append_nil]
    rfl

end Score

/-! ### Runs -/

/-- What is written between two scores has the keys of some texts. -/
structure Score.Keyed (texts : List (Int × String)) (s s' : Score) : Prop where
  key : s'.key = s.key.after texts
  warnings : s'.keyWarnings = s.keyWarnings ++ s.key.warnings texts

/-- The text of the key that an action puts in force, if it is one. -/
def Action.keyText? : Action → Option (Int × String)
  | globals slice => slice.keyText?
  | _ => none

/-- The global settings of a slice put its key in force, or warn of it. -/
theorem Score.keyed_addGlobals (current : Slice) (s : Score) :
    s.Keyed current.keyText?.toList (s.addGlobals current) := by
  have hchange : s.Keyed current.keyText?.toList (s.changeKey current).2 := by
    unfold changeKey Slice.keyText?
    cases current.globals.get? keyCommand with
    | none => exact ⟨rfl, (List.append_nil _).symm⟩
    | some text =>
      cases hread : KeySignature.read text with
      | ok key =>
        refine ⟨by simp [KeySignature.after, hread, Except.toOption], ?_⟩
        simp [KeySignature.warnings, hread, keyWarnings, Score.warnings]
      | error e =>
        refine ⟨by simp [KeySignature.after, hread, Except.toOption, warn, addNotice], ?_⟩
        simp only [Option.map_some, Option.toList_some, KeySignature.warnings, hread]
        rw [keyWarnings, warnings_warn, List.filter_append]
        rfl
  simp only [addGlobals]
  split
  · exact hchange
  · exact ⟨hchange.key, hchange.warnings⟩

/-- An action has the key that it puts in force. -/
theorem Action.keyed {p : Plan} {a : Action} {s s' : Score}
    (h : Writing.Writes (a.write p) s () s') :
    s.Keyed a.keyText?.toList s' := by
  by_cases hglobals : ∃ slice, a = .globals slice
  · obtain ⟨slice, rfl⟩ := hglobals
    cases h
    exact s.keyed_addGlobals slice
  · have hsame := Writing.Along.action Score.SameKeys.stable p
      (fun slice heq => hglobals ⟨slice, heq⟩) h
    have hnone : a.keyText? = none := by
      cases a <;> first | rfl | exact absurd ⟨_, rfl⟩ hglobals
    rw [hnone]
    exact ⟨hsame.key, hsame.warnings.trans (List.append_nil _).symm⟩

/-- A run of actions has the keys that they put in force. -/
theorem Score.keyed_run {p : Plan} {actions : List Action} {s s' : Score}
    (h : Writing.Writes (actions.forM (Action.write p)) s () s') :
    s.Keyed (actions.filterMap Action.keyText?) s' := by
  induction actions generalizing s with
  | nil =>
    cases h
    exact ⟨rfl, (List.append_nil _).symm⟩
  | cons a rest ih =>
    obtain ⟨_, s₁, hfirst, hrest⟩ := Writing.Writes.exists_bind h
    have hkeyed := Action.keyed hfirst
    have hkeyed' := ih hrest
    have htexts : (a :: rest).filterMap Action.keyText? =
        a.keyText?.toList ++ rest.filterMap Action.keyText? := by
      rw [List.filterMap_cons]
      cases a.keyText? <;> rfl
    rw [htexts]
    refine ⟨?_, ?_⟩
    · rw [hkeyed'.key, hkeyed.key, KeySignature.after, KeySignature.after, KeySignature.after,
        List.foldl_append]
    · rw [hkeyed'.warnings, hkeyed.warnings, hkeyed.key, KeySignature.warnings_append,
        List.append_assoc]

/-- What only global settings have is found slice by slice. -/
theorem Plan.filterMap_globals {α : Type} (p : Plan) {f : Action → Option α}
    (hf : ∀ a, (∀ slice, a ≠ .globals slice) → f a = none) (slices : List Slice) :
    (p.actions slices).filterMap f = slices.filterMap (fun slice => f (.globals slice)) := by
  have hslice (s : Slice × Nat) :
      (p.sliceActions s).filterMap f = (f (.globals s.1)).toList := by
    have hmusic : ((List.finRange channelCount).flatMap
        (fun channel => (Call.channelBlock s.1 channel).actions p)).filterMap f = [] := by
      refine List.filterMap_eq_nil_iff.mpr (fun a ha => hf a (fun slice heq => ?_))
      obtain ⟨channel, _, ha⟩ := List.mem_flatMap.mp ha
      rcases Call.mem_channelBlock ha with rfl | ⟨g, _, rfl⟩ | ⟨g, _, _, rfl⟩ <;> cases heq
    have hbegin : f (.beginSlice s.1 (s.2 : Int)) = none := hf _ (fun slice heq => by cases heq)
    rw [sliceActions_eq, content, List.filterMap_cons_none hbegin, List.filterMap_cons, hmusic]
    cases f (.globals s.1) <;> rfl
  rw [actions_eq, List.filterMap_flatMap, List.filterMap_eq_flatMap_toList]
  simp only [hslice]
  conv_rhs => rw [← List.zipIdx_map_fst 0 slices, List.flatMap_map]

/-- The actions for slices put the keys of the slices in force. -/
theorem Plan.filterMap_keyText? (p : Plan) (slices : List Slice) :
    (p.actions slices).filterMap Action.keyText? = slices.filterMap Slice.keyText? := by
  refine p.filterMap_globals (fun a ha => ?_) slices
  cases a with
  | globals slice => exact absurd rfl (ha slice)
  | _ => rfl

/-- The warnings of a score about keys are those of the texts of its slices. -/
theorem Plan.keyWarnings_of_score {p : Plan} {slices : List Slice} {s : Score}
    (h : p.score slices = .ok s) :
    s.keyWarnings = KeySignature.cMajor.warnings (slices.filterMap Slice.keyText?) := by
  have hrun := (Score.keyed_run (score_eq_ok.mp h)).warnings
  rw [p.filterMap_keyText?] at hrun
  exact hrun

end Transcription
