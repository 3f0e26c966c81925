import Transcription.Proofs.Number.Binary64
import Transcription.Proofs.Recording.WellFormed
import Transcription.Settings

/-!
# Refused documents

What is read from a document is refused because a value is not one of those expected, with two
exceptions. A whole tempo may lie beyond the numbers of double precision, and the output format of
settings may be an array or an object. These are all documents that are refused for another reason.
-/

namespace Transcription

open Number

/-! ### Documents with finite numbers -/

/-- A value all of whose numbers are finite. -/
inductive Json.Finite : Json → Prop
  | null : Finite null
  | bool (b : Bool) : Finite (bool b)
  | int (n : Int) : Finite (int n)
  | real {x : Binary64} (h : x.IsFinite) : Finite (real x)
  | str (s : String) : Finite (str s)
  | arr {items : List Json} (h : ∀ item ∈ items, Finite item) : Finite (arr items)
  | obj {members : List (String × Json)} (h : ∀ m ∈ members, Finite m.2) : Finite (obj members)

namespace Json

/-- The member with a name is the first one, or a later one. -/
theorem member?_cons (m : String × Json) (members : List (String × Json)) (name : String) :
    member? (m :: members) name = if m.1 = name then some m.2 else member? members name := by
  unfold member?
  rw [List.find?_cons]
  split
  · rename_i h
    rw [if_pos (of_decide_eq_true h)]
    rfl
  · rename_i h
    rw [if_neg (of_decide_eq_false h)]

/-- A member that is set is found, and the others are as before. -/
theorem member?_setMember (name : String) (value : Json) (members : List (String × Json))
    (name' : String) : member? (setMember name value members) name' =
      if name = name' then some value else member? members name' := by
  induction members with
  | nil => exact member?_cons _ _ _
  | cons m members ih =>
    rw [setMember, member?_cons]
    split
    · rename_i hm
      rw [member?_cons, hm]
      split
      · rfl
      · rfl
    · rename_i hm
      rw [member?_cons, ih]
      by_cases hname : name = name'
      · rw [if_pos hname, if_pos hname, if_neg (hname ▸ hm)]
      · rw [if_neg hname, if_neg hname]

/-- The members of a finite object are finite. -/
theorem Finite.member {members : List (String × Json)} {name : String} {value : Json}
    (h : (Json.obj members).Finite) (hmember : member? members name = some value) :
    value.Finite := by
  obtain ⟨m, hm, rfl⟩ := Option.map_eq_some_iff.mp hmember
  cases h with
  | obj h => exact h m (List.mem_of_find?_eq_some hm)

/-- The items of a finite array are finite. -/
theorem Finite.item {items : List Json} {item : Json} (h : (Json.arr items).Finite)
    (hitem : item ∈ items) : item.Finite := by
  cases h with
  | arr h => exact h item hitem

end Json

/-! ### Tempos -/

namespace Tempo

open Binary64 (nearest limit)

variable {q : Rat}

/-- A tempo that is a number of double precision still is one when it is rounded to hundredths. -/
theorem exists_rounded (hnonneg : 0 ≤ q) (hself : nearest q = .finite q) :
    ∃ r, rounded q = .finite r := by
  unfold rounded
  rcases le_or_gt (power 2 53) q with hlarge | hsmall
  · obtain ⟨n, rfl⟩ := Binary64.exists_eq_intCast hlarge hself
    exact ⟨n, by rwa [roundToMultiple_intCast (by decide)]⟩
  · -- what is rounded is at most `2 ^ 53`, so it stays below the limit
    have hle : roundToMultiple 100 q ≤ ((2 ^ 53 : Int) : Rat) :=
      roundToMultiple_le (by decide) (by rw [cast_two_pow]; exact hsmall.le)
    have hnonneg' : ((0 : Int) : Rat) ≤ roundToMultiple 100 q :=
      le_roundToMultiple (by decide) (by exact_mod_cast hnonneg)
    rw [Int.cast_zero] at hnonneg'
    rcases hnonneg'.eq_or_lt with hzero | hpos
    · exact ⟨0, by rw [← hzero]; rfl⟩
    · have hbelow : ¬(limit : Rat) ≤ roundToMultiple 100 q := by
        rw [cast_two_pow] at hle
        exact not_le.mpr (hle.trans_lt (Binary64.power_lt_limit (by decide)))
      exact ⟨_, by rw [Binary64.nearest_of_pos hpos, if_neg hbelow]⟩

/-- A tempo of double precision that is not negative has a text. -/
theorem exists_text (hnonneg : 0 ≤ q) (hself : nearest q = .finite q) :
    ∃ t, text (.finite q) = .ok t := by
  obtain ⟨r, hr⟩ := exists_rounded hnonneg hself
  exact ⟨finiteText r, by rw [text, hr]⟩

/-- A positive whole tempo has a text if it is below the limit, and is too large otherwise. -/
theorem intText_of_pos {n : Int} (hpos : 0 < n) :
    if limit ≤ n then intText n = .error .tooLarge else ∃ t, intText n = .ok t := by
  have hcast : (0 : Rat) < n := by exact_mod_cast hpos
  have hlimit : (limit : Rat) ≤ n ↔ limit ≤ n := Int.cast_le
  have hnearest := Binary64.nearest_of_pos hcast
  split
  · rename_i hlarge
    rw [if_pos (hlimit.mpr hlarge)] at hnearest
    rw [intText, ofInt, hnearest]
    rfl
  · rename_i hsmall
    rw [if_neg (mt hlimit.mp hsmall)] at hnearest
    obtain ⟨t, ht⟩ := exists_text (Binary64.nearestPositive_nonneg hcast)
      (Binary64.nearest_eq_self hcast hnearest)
    refine ⟨t, ?_⟩
    rw [intText, ofInt, hnearest]
    exact ht

end Tempo

/-! ### Reasons of refusal -/

/-- A computation that is refused for no reason but those with a property. -/
def RefusedFor {α : Type} (P : Failure → Prop) (x : Except Failure α) : Prop :=
  ∀ e, x = .error e → P e

/-- A failure that is a matter of values. -/
def Failure.IsValue (e : Failure) : Prop := e.kind = .value

namespace RefusedFor

variable {α β : Type} {P Q : Failure → Prop}

theorem ok (a : α) : RefusedFor P (.ok a) := nofun

theorem error {e : Failure} (h : P e) : RefusedFor P (.error e : Except Failure α) := by
  intro e' he
  cases he
  exact h

theorem mono {x : Except Failure α} (h : RefusedFor P x) (himp : ∀ e, P e → Q e) :
    RefusedFor Q x := fun e he => himp e (h e he)

/-- A sequence is refused for the reasons of its parts. -/
theorem bind {x : Except Failure α} {f : α → Except Failure β} (h : RefusedFor P x)
    (hrest : ∀ a, x = .ok a → RefusedFor P (f a)) : RefusedFor P (x >>= f) := by
  intro e he
  rcases bind_eq_error.mp he with he | ⟨a, ha, he⟩
  · exact h e he
  · exact hrest a ha e he

theorem map {x : Except Failure α} {f : α → β} (h : RefusedFor P x) : RefusedFor P (x.map f) := by
  cases x with
  | ok a => exact .ok (f a)
  | error e => exact .error (h e rfl)

/-- A fold is refused for the reasons of its steps. -/
theorem foldlM {f : β → α → Except Failure β} {l : List α}
    (hstep : ∀ b, ∀ a ∈ l, RefusedFor P (f b a)) (b : β) : RefusedFor P (l.foldlM f b) := by
  induction l generalizing b with
  | nil => exact .ok b
  | cons a l ih =>
    rw [List.foldlM_cons]
    exact (hstep b a List.mem_cons_self).bind
      (fun b' _ => ih (fun b a' ha' => hstep b a' (List.mem_cons_of_mem _ ha')) b')

end RefusedFor

namespace Recording

variable {place : String}

theorem refusedFor_membersOf (value : Json) :
    RefusedFor Failure.IsValue (membersOf place value) := by
  cases value with
  | obj members => exact .ok members
  | _ => exact .error rfl

theorem refusedFor_itemsOf (value : Option Json) :
    RefusedFor Failure.IsValue (itemsOf place value) := by
  unfold itemsOf
  split
  · exact .ok _
  · exact .ok _
  · exact .error rfl

theorem refusedFor_intIn (low high : Int) (value : Option Json) :
    RefusedFor Failure.IsValue (intIn place low high value) := by
  unfold intIn
  split
  · split
    · exact .ok _
    · exact .error rfl
  · exact .error rfl

/-- Items are refused for the reasons of the single ones. -/
theorem refusedFor_readItems {α : Type} {P : Failure → Prop}
    {read : String → α → Json → Except Failure α} {items : List Json}
    (hread : ∀ place a, ∀ item ∈ items, RefusedFor P (read place a item)) (a : α) :
    RefusedFor P (readItems read place a items) :=
  RefusedFor.foldlM (fun a e he => hread _ a e.1 (List.fst_mem_of_mem_zipIdx he)) a

theorem refusedFor_readNote (channel : Int) (r : Recording) (value : Json) :
    RefusedFor Failure.IsValue (readNote channel place r value) :=
  (refusedFor_membersOf value).bind fun _ _ => (refusedFor_intIn _ _ _).bind fun _ _ =>
    (refusedFor_intIn _ _ _).bind fun _ _ => (refusedFor_intIn _ _ _).bind fun _ _ =>
      (refusedFor_intIn _ _ _).bind fun _ _ => .ok _

theorem refusedFor_readProgram (channel : Int) (r : Recording) (value : Json) :
    RefusedFor Failure.IsValue (readProgram channel place r value) :=
  (refusedFor_membersOf value).bind fun _ _ => (refusedFor_intIn _ _ _).bind fun _ _ =>
    (refusedFor_intIn _ _ _).bind fun _ _ => .ok _

theorem refusedFor_readChannelNumber (key : String) :
    RefusedFor Failure.IsValue (readChannelNumber place key) := by
  unfold readChannelNumber
  split
  · exact .error rfl
  · exact refusedFor_intIn _ _ _

theorem refusedFor_readChannel (r : Recording) (member : String × Json) :
    RefusedFor Failure.IsValue (readChannel r member) :=
  (refusedFor_readChannelNumber _).bind fun channel _ => (refusedFor_membersOf _).bind fun _ _ =>
    (refusedFor_itemsOf _).bind fun _ _ =>
      (refusedFor_readItems (fun _ r item _ => refusedFor_readNote channel r item) r).bind
        fun r _ => (refusedFor_itemsOf _).bind fun _ _ =>
          refusedFor_readItems (fun _ r item _ => refusedFor_readProgram channel r item) r

theorem refusedFor_readEnd (members : List (String × Json)) :
    RefusedFor Failure.IsValue (readEnd members) := by
  unfold readEnd
  split
  · exact .ok _
  · exact (refusedFor_intIn _ _ _).map

theorem refusedFor_new (resolution : Int) (endTick : Option Int) :
    RefusedFor Failure.IsValue (Recording.new resolution endTick) := by
  unfold Recording.new
  split
  · exact .ok _
  · exact .error rfl

theorem refusedFor_readKey (value : Json) : RefusedFor Failure.IsValue (readKey place value) := by
  unfold readKey
  split
  · split
    · exact .error rfl
    · exact .ok _
  · exact .error rfl

/-! ### Tempos that are too large -/

/-- A whole tempo from the limit on is too large. -/
theorem readTempo_of_limit {n : Int} (hlarge : Binary64.limit ≤ n) :
    readTempo place (.int n) = .error .tooLarge := by
  have hpos : 0 < n := Binary64.limit_pos.trans_le hlarge
  have htext := Tempo.intText_of_pos hpos
  rw [if_pos hlarge] at htext
  rw [readTempo, if_neg (not_le.mpr hpos), htext]

/-- A tempo is refused for its value, or a whole one because it is too large. -/
theorem refusedFor_readTempo {value : Json} (hfinite : value.Finite) :
    RefusedFor (fun e => e.IsValue ∨ e = .tooLarge ∧ ∃ n, value = .int n ∧ Binary64.limit ≤ n)
      (readTempo place value) := by
  cases hfinite with
  | int n =>
    rw [readTempo]
    split
    · exact .error (Or.inl rfl)
    · rename_i hpos
      have htext := Tempo.intText_of_pos (not_le.mp hpos)
      split at htext
      · rename_i hlarge
        rw [htext]
        exact .error (Or.inr ⟨rfl, n, rfl, hlarge⟩)
      · obtain ⟨t, ht⟩ := htext
        rw [ht]
        exact .ok t
  | @real x hx =>
    cases x with
    | finite q =>
      rw [readTempo]
      split
      · exact .error (Or.inl rfl)
      · rename_i hpos
        have hnonneg : 0 ≤ q := (not_le.mp (by simpa [Binary64.isNonpositive] using hpos)).le
        obtain ⟨t, ht⟩ := Tempo.exists_text hnonneg hx
        rw [ht]
        exact .ok t
    | infinite | nan => cases hx
  | null | bool | str | arr | obj => exact .error (Or.inl rfl)

/-- Commands with a whole tempo that is too large, at a tick that a document may name. -/
def HugeTempo (value : Json) : Prop :=
  ∃ members tick tempo, value = .obj members ∧ Json.member? members "tick" = some (.int tick) ∧
    (0 ≤ tick ∧ tick ≤ maxTick) ∧ Json.member? members tempoCommand = some (.int tempo) ∧
    Binary64.limit ≤ tempo

/-- Commands with a tempo that is too large are refused for that. -/
theorem HugeTempo.readCommands_eq {value : Json} (h : HugeTempo value) (r : Recording) :
    readCommands place r value = .error .tooLarge := by
  obtain ⟨members, tick, tempo, rfl, htick, hrange, htempo, hlarge⟩ := h
  have hread : intIn (place ++ ".tick") 0 maxTick (Json.member? members "tick") = .ok tick :=
    intIn_eq_ok.mpr ⟨htick, hrange⟩
  refine bind_eq_error.mpr (Or.inr ⟨members, rfl, bind_eq_error.mpr (Or.inr ⟨tick, hread, ?_⟩)⟩)
  simp only [htempo, readTempo_of_limit hlarge]
  rfl

private theorem refusedFor_keyCommand {P : Failure → Prop} {r : Recording} {tick : Int}
    {key : Option Json} :
    RefusedFor (fun e => e.IsValue ∨ P e) (match key with
      | none => pure r
      | some key => do
        let text ← readKey place key
        pure (r.setCommand tick keyCommand text) : Except Failure Recording) := by
  cases key with
  | none => exact .ok r
  | some key => exact ((refusedFor_readKey key).mono fun _ => Or.inl).bind fun _ _ => .ok _

/-- Commands are refused for a value, or because the tempo is too large. -/
theorem refusedFor_readCommands {value : Json} (hfinite : value.Finite) (r : Recording) :
    RefusedFor (fun e => e.IsValue ∨ e = .tooLarge ∧ HugeTempo value)
      (readCommands place r value) := by
  refine ((refusedFor_membersOf value).mono fun _ => Or.inl).bind fun members hmembers =>
    ((refusedFor_intIn _ _ _).mono fun _ => Or.inl).bind fun tick htick => ?_
  obtain ⟨htick, hrange⟩ := intIn_eq_ok.mp htick
  obtain rfl := membersOf_eq_ok.mp hmembers
  simp only
  split
  · exact refusedFor_keyCommand
  · rename_i tempo htempo
    refine RefusedFor.bind (fun e he => ?_) fun _ _ => refusedFor_keyCommand
    rcases refusedFor_readTempo (hfinite.member htempo) e he with
      hvalue | ⟨htoo, n, rfl, hlarge⟩
    · exact Or.inl hvalue
    · exact Or.inr ⟨htoo, members, tick, n, rfl, htick, hrange, htempo, hlarge⟩

/-! ### Documents -/

/-- The first item that is refused comes after items that are read. -/
theorem foldlM_zipIdx_eq_error {α β : Type} {f : β → α × Nat → Except Failure β} {items : List α}
    {k : Nat} {b : β} {e : Failure} :
    (items.zipIdx k).foldlM f b = .error e ↔ ∃ before item after b',
      items = before ++ item :: after ∧ (before.zipIdx k).foldlM f b = .ok b' ∧
      f b' (item, k + before.length) = .error e := by
  induction items generalizing k b with
  | nil =>
    constructor
    · intro h
      cases h
    · rintro ⟨before, item, after, b', hitems, -, -⟩
      cases before <;> cases hitems
  | cons a items ih =>
    rw [List.zipIdx_cons, List.foldlM_cons, bind_eq_error]
    constructor
    · rintro (he | ⟨b₁, ha, he⟩)
      · exact ⟨[], a, items, b, rfl, rfl, he⟩
      · obtain ⟨before, item, after, b', rfl, hbefore, he⟩ := ih.mp he
        refine ⟨a :: before, item, after, b', rfl, ?_, ?_⟩
        · rw [List.zipIdx_cons, List.foldlM_cons, ha]
          exact hbefore
        · rwa [List.length_cons, Nat.add_comm before.length 1, ← Nat.add_assoc]
    · rintro ⟨before, item, after, b', hitems, hbefore, he⟩
      cases before with
      | nil =>
        cases hitems
        cases hbefore
        exact Or.inl he
      | cons _ before =>
        cases hitems
        rw [List.zipIdx_cons, List.foldlM_cons] at hbefore
        obtain ⟨b₁, ha, hbefore⟩ := bind_eq_ok.mp hbefore
        refine Or.inr ⟨b₁, ha, ih.mpr ⟨before, item, after, b', rfl, hbefore, ?_⟩⟩
        rwa [List.length_cons, Nat.add_comm before.length 1, ← Nat.add_assoc] at he

/-- The sequence of a document without its global commands. -/
def playedOf (members : List (String × Json)) : Except Failure Recording := do
  let resolution ← intIn "resolution" 1 65535 (Json.member? members "resolution")
  let endTick ← readEnd members
  let r ← Recording.new resolution endTick
  let channels ← membersOf "channels" ((Json.member? members "channels").getD (.obj []))
  channels.foldlM readChannel r

/-- A document is read in two parts, the global commands last. -/
theorem ofDocument_obj (members : List (String × Json)) :
    ofDocument (.obj members) = (do
      let r ← playedOf members
      let globals ← itemsOf "globals" (Json.member? members "globals")
      readItems readCommands "globals" r globals) := by
  simp only [playedOf, bind_assoc]
  rfl

/-- What is played is refused for its values. -/
theorem refusedFor_playedOf (members : List (String × Json)) :
    RefusedFor Failure.IsValue (playedOf members) :=
  (refusedFor_intIn _ _ _).bind fun _ _ => (refusedFor_readEnd members).bind fun _ _ =>
    (refusedFor_new _ _).bind fun r _ => (refusedFor_membersOf _).bind fun _ _ =>
      RefusedFor.foldlM (fun r member _ => refusedFor_readChannel r member) r

/-- The global commands are not played. -/
theorem playedOf_setMember (value : Json) (members : List (String × Json)) :
    playedOf (Json.setMember "globals" value members) = playedOf members := by
  have hother {name : String} (h : "globals" ≠ name) :
      Json.member? (Json.setMember "globals" value members) name = Json.member? members name := by
    rw [Json.member?_setMember, if_neg h]
  have hend : readEnd (Json.setMember "globals" value members) = readEnd members := by
    rw [readEnd, readEnd, Json.given?, Json.given?, hother (by decide)]
  rw [playedOf, playedOf, hother (by decide), hend, hother (by decide)]

/-- Documents with a tempo that is too large: up to some of the global commands they are read, and
the tempo of these is too large. -/
def TempoTooLarge (document : Json) : Prop :=
  ∃ members before command after r, document = .obj members ∧
    Json.member? members "globals" = some (.arr (before ++ command :: after)) ∧
    ofDocument (.obj (Json.setMember "globals" (.arr before) members)) = .ok r ∧
    HugeTempo command

/-- A document up to some of its global commands is read if it is played and these are read. -/
theorem ofDocument_setMember {members : List (String × Json)} {before : List Json} {r : Recording} :
    ofDocument (.obj (Json.setMember "globals" (.arr before) members)) = .ok r ↔
      ∃ r₀, playedOf members = .ok r₀ ∧ readItems readCommands "globals" r₀ before = .ok r := by
  rw [ofDocument_obj, playedOf_setMember, Json.member?_setMember, if_pos rfl]
  exact bind_eq_ok

/-- A document with a tempo that is too large is refused for that. -/
theorem TempoTooLarge.ofDocument_eq {document : Json} (h : TempoTooLarge document) :
    ofDocument document = .error .tooLarge := by
  obtain ⟨members, before, command, after, r, rfl, hglobals, hok, hhuge⟩ := h
  obtain ⟨r₀, hplayed, hbefore⟩ := ofDocument_setMember.mp hok
  rw [ofDocument_obj, hplayed, hglobals]
  exact foldlM_zipIdx_eq_error.mpr
    ⟨before, command, after, r, rfl, hbefore, hhuge.readCommands_eq r⟩

/-- A document is refused for a value, or because a tempo is too large. -/
theorem refusedFor_ofDocument {document : Json} (hfinite : document.Finite) :
    RefusedFor (fun e => e.IsValue ∨ e = .tooLarge ∧ TempoTooLarge document)
      (ofDocument document) := by
  cases document with
  | obj members =>
    rw [ofDocument_obj]
    refine ((refusedFor_playedOf members).mono fun _ => Or.inl).bind fun r₀ hplayed =>
      ((refusedFor_itemsOf _).mono fun _ => Or.inl).bind fun globals hglobals e he => ?_
    obtain ⟨before, command, after, r, rfl, hbefore, he⟩ := foldlM_zipIdx_eq_error.mp he
    have hmember := (itemsOf_eq_ok.mp hglobals).resolve_right (by simp)
    have hcommand := (hfinite.member hmember).item (List.mem_append_right _ List.mem_cons_self)
    rcases refusedFor_readCommands hcommand r e he with he | ⟨he, hhuge⟩
    · exact Or.inl he
    · exact Or.inr ⟨he, members, before, command, after, r, rfl, hmember,
        ofDocument_setMember.mpr ⟨r₀, hplayed, hbefore⟩, hhuge⟩
  | null | bool | int | real | str | arr => exact .error (Or.inl rfl)

end Recording

namespace Settings

/-- Settings whose output format is an array or an object, and all of whose options exist. -/
def FormatNotText (document : Json) : Prop :=
  ∃ members, document = .obj members ∧ unknownNames members = [] ∧
    ((∃ items, Json.member? members "format" = some (.arr items)) ∨
      ∃ inner, Json.member? members "format" = some (.obj inner))

/-- Names are accepted if none of them is unknown. -/
theorem checkNames_eq_ok {members : List (String × Json)} :
    checkNames members = .ok () ↔ unknownNames members = [] := by
  unfold checkNames
  split
  · rename_i hnone
    exact iff_of_true rfl hnone
  · rename_i hsome
    exact iff_of_false nofun hsome

theorem refusedFor_checkNames (members : List (String × Json)) :
    RefusedFor Failure.IsValue (checkNames members) := by
  unfold checkNames
  split
  · exact .ok _
  · exact .error rfl

theorem refusedFor_readMinRest (value : Option Json) :
    RefusedFor Failure.IsValue (readMinRest value) := by
  unfold readMinRest
  split
  · exact .ok _
  · split
    · exact .error rfl
    · exact .ok _
  · exact .error rfl

theorem refusedFor_readFlag (name : String) (default : Bool) (value : Option Json) :
    RefusedFor Failure.IsValue (readFlag name default value) := by
  unfold readFlag
  split
  · exact .ok _
  · exact .ok _
  · exact .error rfl

/-- A format is refused for its value, or an array or an object because of its type. -/
theorem refusedFor_readFormat (value : Option Json) :
    RefusedFor (fun e => e.IsValue ∨ e.kind = .type ∧
      ((∃ items, value = some (.arr items)) ∨ ∃ inner, value = some (.obj inner)))
      (readFormat value) := by
  unfold readFormat
  split
  · exact .ok _
  · split
    · exact .ok _
    · exact .error (Or.inl rfl)
  · rename_i items
    exact .error (Or.inr ⟨rfl, Or.inl ⟨items, rfl⟩⟩)
  · rename_i inner
    exact .error (Or.inr ⟨rfl, Or.inr ⟨inner, rfl⟩⟩)
  · exact .error (Or.inl rfl)

/-- Settings are refused for a value, or because of the type of the format. -/
theorem refusedFor_ofDocument (document : Json) :
    RefusedFor (fun e => e.IsValue ∨ e.kind = .type ∧ FormatNotText document)
      (ofDocument document) := by
  cases document with
  | null => exact .ok _
  | obj members =>
    refine ((refusedFor_checkNames members).mono fun _ => Or.inl).bind fun _ hnames =>
      RefusedFor.bind (fun e he => ?_) fun _ _ =>
        ((refusedFor_readMinRest _).mono fun _ => Or.inl).bind fun _ _ =>
          ((refusedFor_readFlag _ _ _).mono fun _ => Or.inl).bind fun _ _ =>
            ((refusedFor_readFlag _ _ _).mono fun _ => Or.inl).bind fun _ _ =>
              ((refusedFor_readFlag _ _ _).mono fun _ => Or.inl).bind fun _ _ => .ok _
    rcases refusedFor_readFormat _ e he with hvalue | ⟨htype, hformat⟩
    · exact Or.inl hvalue
    · exact Or.inr ⟨htype, members, rfl, checkNames_eq_ok.mp hnames, hformat⟩
  | bool | int | real | str | arr => exact .error (Or.inl rfl)

/-- Settings whose format is an array or an object are refused for its type. -/
theorem FormatNotText.exists_error {document : Json} (h : FormatNotText document) :
    ∃ e, ofDocument document = .error e ∧ e.kind = .type := by
  obtain ⟨members, rfl, hnames, hformat⟩ := h
  have hformat : ∃ e, readFormat (Json.member? members "format") = .error e ∧ e.kind = .type := by
    rcases hformat with ⟨items, hmember⟩ | ⟨inner, hmember⟩
    · exact ⟨_, by rw [hmember]; rfl, rfl⟩
    · exact ⟨_, by rw [hmember]; rfl, rfl⟩
  obtain ⟨e, he, htype⟩ := hformat
  exact ⟨e, bind_eq_error.mpr (Or.inr ⟨(), checkNames_eq_ok.mpr hnames,
    bind_eq_error.mpr (Or.inl he)⟩), htype⟩

end Settings

/-- **Documents are refused for their values**, with two exceptions. A document of a recording that
is refused for another reason has a whole tempo that is too large, and settings that are refused for
another reason have an array or an object for their format. Both are refused, the first as an
overflow and the second for a type. -/
theorem refused_otherwise_iff (document : Json) :
    (document.Finite →
      ((∃ e, Recording.ofDocument document = .error e ∧ e.kind ≠ .value) ↔
        Recording.TempoTooLarge document) ∧
      ∀ e, Recording.ofDocument document = .error e → e.kind = .value ∨ e.kind = .overflow) ∧
    ((∃ e, Settings.ofDocument document = .error e ∧ e.kind ≠ .value) ↔
      Settings.FormatNotText document) ∧
    ∀ e, Settings.ofDocument document = .error e → e.kind = .value ∨ e.kind = .type := by
  refine ⟨fun hfinite => ⟨⟨?_, ?_⟩, fun e he => ?_⟩, ⟨?_, ?_⟩, fun e he => ?_⟩
  · rintro ⟨e, he, hkind⟩
    exact ((Recording.refusedFor_ofDocument hfinite e he).resolve_left hkind).2
  · intro htoo
    exact ⟨.tooLarge, htoo.ofDocument_eq, by decide⟩
  · exact (Recording.refusedFor_ofDocument hfinite e he).imp_right fun ⟨htoo, _⟩ => htoo ▸ rfl
  · rintro ⟨e, he, hkind⟩
    exact ((Settings.refusedFor_ofDocument document e he).resolve_left hkind).2
  · intro hformat
    obtain ⟨e, he, htype⟩ := hformat.exists_error
    exact ⟨e, he, by rw [htype]; decide⟩
  · exact (Settings.refusedFor_ofDocument document e he).imp_right And.left

/-- A document whose only command is a tempo of a number with 401 digits. -/
def tooFast : Json :=
  .obj [("resolution", .int 480),
    ("globals", .arr [.obj [("tick", .int 0), ("tempo", .int (10 ^ 400))]])]

/-- Settings with an empty array for their format. -/
def formatList : Json := .obj [("format", .arr [])]

theorem finite_tooFast : tooFast.Finite := by
  refine .obj fun m hm => ?_
  simp only [List.mem_cons, List.not_mem_nil, or_false] at hm
  rcases hm with rfl | rfl
  · exact .int _
  · refine .arr fun item hitem => ?_
    rw [List.mem_singleton.mp hitem]
    refine .obj fun m hm => ?_
    simp only [List.mem_cons, List.not_mem_nil, or_false] at hm
    rcases hm with rfl | rfl
    · exact .int _
    · exact .int _

theorem tempoTooLarge_tooFast : Recording.TempoTooLarge tooFast := by
  obtain ⟨r, hok, _⟩ := exists_eq_ok
    (show (Recording.ofDocument
      (.obj [("resolution", .int 480), ("globals", .arr [])])).toOption.any
        (fun _ => true) = true by decide +kernel)
  refine ⟨_, [], _, [], r, rfl, rfl, hok, _, 0, 10 ^ 400, rfl, rfl, by decide, rfl, ?_⟩
  decide +kernel

/-- Such a tempo is refused as an overflow, and such a format for its type. -/
theorem refused_otherwise :
    (tooFast.Finite ∧ Recording.ofDocument tooFast = .error .tooLarge ∧
      Failure.tooLarge.kind = .overflow) ∧
    ∃ e, Settings.ofDocument formatList = .error e ∧ e.kind = .type := by
  refine ⟨⟨finite_tooFast, tempoTooLarge_tooFast.ofDocument_eq, rfl⟩, .formatNotText "list", ?_,
    rfl⟩
  decide +kernel

/-- A tempo that is too large is a reason for refusal. -/
theorem refused_otherwise_iff_tooFast :
    tooFast.Finite ∧ ∃ e, Recording.ofDocument tooFast = .error e ∧ e.kind ≠ .value :=
  ⟨finite_tooFast, ((refused_otherwise_iff tooFast).1 finite_tooFast).1.mpr tempoTooLarge_tooFast⟩

end Transcription
