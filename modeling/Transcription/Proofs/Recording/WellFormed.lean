import Transcription.Proofs.Recording.Tempo
import Transcription.Proofs.Table
import Transcription.Recording.Document

/-!
# Recordings of documents

Every number of a document has its range, so a recording that is read from a document is built from
an empty one by striking, releasing, choosing and commanding within these ranges. In whatever is
built like this channels have lanes, programs have instruments and pitches have names, no tick lies
before the start, and at every tick of a strike at least one note is struck.
-/

namespace Transcription

section Outcomes

variable {ε α β : Type}

/-- A computation that gives back something with a property succeeds. -/
theorem exists_eq_ok {x : Except ε α} {f : α → Bool} (h : x.toOption.any f = true) :
    ∃ a, x = .ok a ∧ f a = true := by
  cases x with
  | error e => cases h
  | ok a => exact ⟨a, rfl, h⟩

/-- A sequence of two computations succeeds if both do. -/
theorem bind_eq_ok {x : Except ε α} {f : α → Except ε β} {b : β} :
    x >>= f = .ok b ↔ ∃ a, x = .ok a ∧ f a = .ok b := by
  cases x with
  | error e => simp [bind, Except.bind]
  | ok a => simp [bind, Except.bind]

/-- A sequence of two computations fails if one of them does. -/
theorem bind_eq_error {x : Except ε α} {f : α → Except ε β} {e : ε} :
    x >>= f = .error e ↔ x = .error e ∨ ∃ a, x = .ok a ∧ f a = .error e := by
  cases x with
  | error e' => simp [bind, Except.bind]
  | ok a => simp [bind, Except.bind]

/-- What every step of a fold preserves holds at the end of a fold that succeeds. -/
theorem foldlM_invariant {P : β → Prop} {f : β → α → Except ε β} {l : List α} {b b' : β}
    (hstep : ∀ b, ∀ a ∈ l, ∀ b', P b → f b a = .ok b' → P b') (hstart : P b)
    (hok : l.foldlM f b = .ok b') : P b' := by
  induction l generalizing b with
  | nil =>
    rw [List.foldlM_nil] at hok
    cases hok
    exact hstart
  | cons a l ih =>
    rw [List.foldlM_cons] at hok
    obtain ⟨b₁, hfirst, hrest⟩ := bind_eq_ok.mp hok
    exact ih (fun b a' ha' => hstep b a' (List.mem_cons_of_mem _ ha'))
      (hstep b a List.mem_cons_self b₁ hstart hfirst) hrest

/-- A computation that succeeds on every item of a list succeeds on the list. -/
theorem mapM_eq_ok {f : α → Except ε β} {g : α → β} {l : List α}
    (hok : ∀ a ∈ l, f a = .ok (g a)) : l.mapM f = .ok (l.map g) := by
  induction l with
  | nil => rfl
  | cons a l ih =>
    have hrest := ih (fun a' ha' => hok a' (List.mem_cons_of_mem _ ha'))
    rw [List.mapM_cons, hok a List.mem_cons_self, hrest]
    rfl

/-- The items of a list on which a computation succeeds have their results at the same places. -/
theorem getElem?_of_mapM {f : α → Except ε β} {l : List α} {l' : List β}
    (hok : l.mapM f = .ok l') : l'.length = l.length ∧
      ∀ (i : Nat) a, l[i]? = some a → ∃ b, l'[i]? = some b ∧ f a = .ok b := by
  induction l generalizing l' with
  | nil =>
    cases hok
    simp
  | cons a l ih =>
    rw [List.mapM_cons] at hok
    obtain ⟨b, hfirst, hok⟩ := bind_eq_ok.mp hok
    obtain ⟨bs, hrest, hok⟩ := bind_eq_ok.mp hok
    cases hok
    obtain ⟨hlength, hget⟩ := ih hrest
    refine ⟨by simp [hlength], fun i a' hi => ?_⟩
    cases i with
    | zero =>
      cases hi
      exact ⟨b, rfl, hfirst⟩
    | succ i => exact hget i a' hi

/-- Results of a computation that are changed afterwards are results that can be changed. -/
theorem mapM_bind_pure {γ : Type} {f : α → Except ε β} {g : β → γ} {l : List α} {l' : List γ}
    (hok : l.mapM (fun a => do return g (← f a)) = .ok l') :
    ∃ bs, l.mapM f = .ok bs ∧ bs.map g = l' := by
  induction l generalizing l' with
  | nil =>
    cases hok
    exact ⟨[], rfl, rfl⟩
  | cons a l ih =>
    rw [List.mapM_cons] at hok
    obtain ⟨c, hfirst, hok⟩ := bind_eq_ok.mp hok
    obtain ⟨b, hb, hfirst⟩ := bind_eq_ok.mp hfirst
    cases hfirst
    obtain ⟨cs, hrest, hok⟩ := bind_eq_ok.mp hok
    cases hok
    obtain ⟨bs, hbs, rfl⟩ := ih hrest
    refine ⟨b :: bs, ?_, rfl⟩
    rw [List.mapM_cons]
    exact bind_eq_ok.mpr ⟨b, hb, bind_eq_ok.mpr ⟨bs, hbs, rfl⟩⟩

end Outcomes

namespace Recording

/-- What is struck at a tick of a document: at least one note, with its pitch and its velocity in
their ranges. -/
structure Struck (notes : Table Int Int) : Prop where
  nonempty : notes.entries ≠ []
  pitch : ∀ e ∈ notes.entries, 0 ≤ e.1 ∧ e.1 ≤ 127
  velocity : ∀ e ∈ notes.entries, 1 ≤ e.2 ∧ e.2 ≤ 127

/-- A recording all of whose numbers are in their ranges. -/
structure WellFormed (r : Recording) : Prop where
  resolution : 0 < r.resolution
  strikes : ∀ c ∈ r.strikes.keys, 0 ≤ c ∧ c ≤ 15
  programs : ∀ c ∈ r.programs.keys, 0 ≤ c ∧ c ≤ 15
  struck : ∀ c, ∀ e ∈ (r.strikesOn c).entries, 0 ≤ e.1 ∧ Struck e.2
  chosen : ∀ c, ∀ e ∈ (r.programsOn c).entries, 0 ≤ e.1 ∧ 0 ≤ e.2 ∧ e.2 ≤ 127

/-- A recording that is built from an empty one with every number in its range. -/
inductive Built : Recording → Prop
  /-- Nothing is recorded yet. -/
  | new {resolution : Int} {endTick : Option Int} (hpos : 0 < resolution) :
    Built { resolution, endTick }
  /-- A note is struck. -/
  | strike {r : Recording} {c tick note velocity : Int} (h : Built r)
    (hchannel : 0 ≤ c ∧ c ≤ 15) (htick : 0 ≤ tick) (hnote : 0 ≤ note ∧ note ≤ 127)
    (hvelocity : 1 ≤ velocity ∧ velocity ≤ 127) : Built (r.strike c tick note velocity)
  /-- A note is released, at any tick. -/
  | release {r : Recording} (h : Built r) (c tick note : Int) : Built (r.release c tick note)
  /-- A program is chosen. -/
  | program {r : Recording} {c tick program : Int} (h : Built r) (hchannel : 0 ≤ c ∧ c ≤ 15)
    (htick : 0 ≤ tick) (hprogram : 0 ≤ program ∧ program ≤ 127) :
    Built (r.addProgram c tick program)
  /-- A global command is given. A tempo is a number. -/
  | command {r : Recording} {tick : Int} {name value : String} (h : Built r) (htick : 0 ≤ tick)
    (htempo : name = tempoCommand → Tempo.IsText value) : Built (r.setCommand tick name value)
  /-- The end of the sequence is said. -/
  | ending {r : Recording} (h : Built r) (endTick : Option Int) : Built { r with endTick }

/-! ### Reading members, items and ranges -/

/-- Members that are read are those of an object. -/
theorem membersOf_eq_ok {place : String} {value : Json} {members : List (String × Json)} :
    membersOf place value = .ok members ↔ value = .obj members := by
  cases value with
  | obj _ => simp [membersOf]
  | _ => exact iff_of_false nofun nofun

/-- Items that are read are those of an array; without one there are none. -/
theorem itemsOf_eq_ok {place : String} {value : Option Json} {items : List Json} :
    itemsOf place value = .ok items ↔ value = some (.arr items) ∨ value = none ∧ items = [] := by
  cases value with
  | none => simp [itemsOf, eq_comm]
  | some value =>
    cases value with
    | arr _ => simp [itemsOf]
    | _ => exact iff_of_false nofun (by simp)

/-- An integer that is read is given, and in its range. -/
theorem intIn_eq_ok {place : String} {low high n : Int} {value : Option Json} :
    intIn place low high value = .ok n ↔ value = some (.int n) ∧ low ≤ n ∧ n ≤ high := by
  constructor
  · intro hok
    unfold intIn at hok
    split at hok
    · split at hok
      · rename_i hrange
        cases hok
        exact ⟨rfl, hrange⟩
      · cases hok
    · cases hok
  · rintro ⟨rfl, hrange⟩
    rw [intIn, if_pos hrange]

/-- A channel that is read has a lane. -/
theorem readChannelNumber_eq_ok {place key : String} {n : Int}
    (hok : readChannelNumber place key = .ok n) : 0 ≤ n ∧ n ≤ 15 := by
  unfold readChannelNumber at hok
  split at hok
  · cases hok
  · exact (intIn_eq_ok.mp hok).2

/-- An empty recording is of a positive resolution. -/
theorem new_eq_ok {resolution : Int} {endTick : Option Int} {r : Recording} :
    Recording.new resolution endTick = .ok r ↔ 0 < resolution ∧ r = { resolution, endTick } := by
  unfold Recording.new
  split
  · rename_i hpos
    simp [hpos, eq_comm]
  · rename_i hnot
    simp [hnot]

/-! ### Recording notes -/

/-- A channel on which something is struck or chosen is one of the channels of a recording. -/
theorem mem_channels {r : Recording} {c : Int} :
    c ∈ r.channels ↔ c ∈ r.strikes.keys ∨ c ∈ r.programs.keys := by
  rw [channels, Table.mem_keys_ofList]
  simp

/-- Setting the notes of a tick changes the strikes of its channel only. -/
theorem strikesOn_setStruck (r : Recording) (c tick : Int) (notes : Table Int Int) (c' : Int) :
    (r.setStruck c tick notes).strikesOn c' =
      if c = c' then (r.strikesOn c).insert tick notes else r.strikesOn c' := by
  unfold strikesOn setStruck
  simp only [Table.get?_insert]
  split
  · rfl
  · rfl

/-- Releasing a note changes no strike and no program. -/
theorem release_eq (r : Recording) (c tick note : Int) :
    ∃ presses, r.release c tick note = { r with presses } := by
  simp only [release]
  split
  · exact ⟨r.presses, rfl⟩
  · exact ⟨_, rfl⟩

namespace WellFormed

variable {r : Recording}

/-- The channels of a well-formed recording have lanes. -/
theorem channels (hrep : r.WellFormed) {c : Int} (hc : c ∈ r.channels) : 0 ≤ c ∧ c ≤ 15 :=
  (mem_channels.mp hc).elim (hrep.strikes c) (hrep.programs c)

/-- The empty recording of a resolution is well formed. -/
theorem new {resolution : Int} {endTick : Option Int} (hpos : 0 < resolution) :
    WellFormed { resolution, endTick } where
  resolution := hpos
  strikes _ hc := absurd hc List.not_mem_nil
  programs _ hc := absurd hc List.not_mem_nil
  struck _ _ he := absurd he List.not_mem_nil
  chosen _ _ he := absurd he List.not_mem_nil

/-- The notes struck at a tick stay in their ranges when another one is added. -/
theorem struckAt (hrep : r.WellFormed) {c tick note velocity : Int} (hnote : 0 ≤ note ∧ note ≤ 127)
    (hvelocity : 1 ≤ velocity ∧ velocity ≤ 127) :
    Struck ((r.struckAt c tick).insert note velocity) := by
  have hold (e : Int × Int) (he : e ∈ (r.struckAt c tick).entries) :
      (0 ≤ e.1 ∧ e.1 ≤ 127) ∧ (1 ≤ e.2 ∧ e.2 ≤ 127) := by
    unfold Recording.struckAt at he
    cases hget : (r.strikesOn c).get? tick with
    | none => simp [hget, Table.empty] at he
    | some notes =>
      rw [hget] at he
      have hstruck := (hrep.struck c (tick, notes) (Table.mem_entries_iff.mpr hget)).2
      exact ⟨hstruck.pitch e he, hstruck.velocity e he⟩
  refine ⟨?_, ?_, ?_⟩
  · intro hnil
    have hmem : (note, velocity) ∈ ((r.struckAt c tick).insert note velocity).entries :=
      Table.mem_entries_insert.mpr (Or.inl rfl)
    simp [hnil] at hmem
  · intro e he
    rcases Table.mem_entries_insert.mp he with rfl | ⟨_, he⟩
    · exact hnote
    · exact (hold e he).1
  · intro e he
    rcases Table.mem_entries_insert.mp he with rfl | ⟨_, he⟩
    · exact hvelocity
    · exact (hold e he).2

/-- A recording stays well formed when a note in range is struck. -/
theorem strike (hrep : r.WellFormed) {c tick note velocity : Int} (hchannel : 0 ≤ c ∧ c ≤ 15)
    (htick : 0 ≤ tick) (hnote : 0 ≤ note ∧ note ≤ 127)
    (hvelocity : 1 ≤ velocity ∧ velocity ≤ 127) : (r.strike c tick note velocity).WellFormed := by
  refine ⟨hrep.resolution, fun c' hc' => ?_, hrep.programs, fun c' e he => ?_, hrep.chosen⟩
  · rcases Table.mem_keys_insert.mp hc' with rfl | hc'
    · exact hchannel
    · exact hrep.strikes c' hc'
  · have he : e ∈ ((r.setStruck c tick ((r.struckAt c tick).insert note velocity)).strikesOn
        c').entries := he
    rw [strikesOn_setStruck] at he
    split at he
    · rcases Table.mem_entries_insert.mp he with rfl | ⟨_, he⟩
      · exact ⟨htick, hrep.struckAt hnote hvelocity⟩
      · exact hrep.struck c e he
    · exact hrep.struck c' e he

/-- Releasing a note does not change whether a recording is well formed. -/
theorem release (hrep : r.WellFormed) (c tick note : Int) :
    (r.release c tick note).WellFormed := by
  obtain ⟨presses, heq⟩ := r.release_eq c tick note
  rw [heq]
  exact ⟨hrep.resolution, hrep.strikes, hrep.programs, hrep.struck, hrep.chosen⟩

/-- A recording stays well formed when a program in range is added. -/
theorem addProgram (hrep : r.WellFormed) {c tick program : Int} (hchannel : 0 ≤ c ∧ c ≤ 15)
    (htick : 0 ≤ tick) (hprogram : 0 ≤ program ∧ program ≤ 127) :
    (r.addProgram c tick program).WellFormed := by
  refine ⟨hrep.resolution, hrep.strikes, fun c' hc' => ?_, hrep.struck, fun c' e he => ?_⟩
  · rcases Table.mem_keys_insert.mp hc' with rfl | hc'
    · exact hchannel
    · exact hrep.programs c' hc'
  · simp only [Recording.addProgram, programsOn, Table.get?_insert] at he
    split at he
    · rcases Table.mem_entries_insert.mp he with rfl | ⟨_, he⟩
      · exact ⟨htick, hprogram⟩
      · exact hrep.chosen c e he
    · exact hrep.chosen c' e he

/-- Global commands do not change whether a recording is well formed. -/
theorem setCommand (hrep : r.WellFormed) (tick : Int) (name value : String) :
    (r.setCommand tick name value).WellFormed :=
  ⟨hrep.resolution, hrep.strikes, hrep.programs, hrep.struck, hrep.chosen⟩

end WellFormed

namespace Built

variable {r : Recording}

/-- What is built is well formed. -/
theorem wellFormed (h : r.Built) : r.WellFormed := by
  induction h with
  | new hpos => exact .new hpos
  | strike _ hchannel htick hnote hvelocity ih => exact ih.strike hchannel htick hnote hvelocity
  | release _ c tick note ih => exact ih.release c tick note
  | program _ hchannel htick hprogram ih => exact ih.addProgram hchannel htick hprogram
  | command _ _ _ ih => exact ih.setCommand _ _ _
  | ending _ _ ih => exact ⟨ih.resolution, ih.strikes, ih.programs, ih.struck, ih.chosen⟩

/-- What is built has no global command before its start. -/
theorem globals_nonneg (h : r.Built) {tick : Int} (htick : tick ∈ r.globals.keys) : 0 ≤ tick := by
  induction h with
  | new => exact absurd htick List.not_mem_nil
  | strike _ _ _ _ _ ih => exact ih htick
  | @release r _ c tick₀ note ih =>
    obtain ⟨presses, heq⟩ := r.release_eq c tick₀ note
    rw [heq] at htick
    exact ih htick
  | program _ _ _ _ ih => exact ih htick
  | command _ hat _ ih =>
    rcases Table.mem_keys_insert.mp htick with rfl | htick
    · exact hat
    · exact ih htick
  | ending _ _ ih => exact ih htick

/-- The tempos of what is built are numbers. -/
theorem isText_tempo (h : r.Built) {tick : Int} {text : String}
    (htext : (r.commandsAt tick).get? tempoCommand = some text) : Tempo.IsText text := by
  induction h with
  | new => cases htext
  | strike _ _ _ _ _ ih => exact ih htext
  | @release r _ c tick₀ note ih =>
    obtain ⟨presses, heq⟩ := r.release_eq c tick₀ note
    rw [heq] at htext
    exact ih htext
  | program _ _ _ _ ih => exact ih htext
  | command _ _ htempo ih =>
    simp only [Recording.commandsAt, setCommand, setCommands, Table.get?_insert] at htext
    split at htext
    · rename_i heq
      rw [Option.getD_some, Table.get?_insert] at htext
      split at htext
      · cases htext
        exact htempo ‹_›
      · exact ih (heq ▸ htext)
    · exact ih htext
  | ending _ _ ih => exact ih htext

end Built

/-! ### Reading documents -/

variable {r r' : Recording}

private theorem readItems_built {read : String → Recording → Json → Except Failure Recording}
    {place : String} {items : List Json}
    (hread : ∀ place r value r', r.Built → read place r value = .ok r' → r'.Built)
    (hbuilt : r.Built) (hok : readItems read place r items = .ok r') : r'.Built :=
  foldlM_invariant (fun _ item _ _ hb hitem => hread _ _ item.1 _ hb hitem) hbuilt hok

/-- Reading a note of a channel strikes and releases it. -/
theorem readNote_built {channel : Int} (hchannel : 0 ≤ channel ∧ channel ≤ 15)
    {place : String} {value : Json} (hbuilt : r.Built)
    (hok : readNote channel place r value = .ok r') : r'.Built := by
  obtain ⟨members, _, hok⟩ := bind_eq_ok.mp hok
  obtain ⟨tick, htick, hok⟩ := bind_eq_ok.mp hok
  obtain ⟨note, hnote, hok⟩ := bind_eq_ok.mp hok
  obtain ⟨velocity, hvelocity, hok⟩ := bind_eq_ok.mp hok
  obtain ⟨length, _, hok⟩ := bind_eq_ok.mp hok
  cases hok
  exact (hbuilt.strike hchannel (intIn_eq_ok.mp htick).2.1 (intIn_eq_ok.mp hnote).2
    (intIn_eq_ok.mp hvelocity).2).release channel (tick + length) note

/-- Reading a program of a channel chooses it. -/
theorem readProgram_built {channel : Int} (hchannel : 0 ≤ channel ∧ channel ≤ 15)
    {place : String} {value : Json} (hbuilt : r.Built)
    (hok : readProgram channel place r value = .ok r') : r'.Built := by
  obtain ⟨members, _, hok⟩ := bind_eq_ok.mp hok
  obtain ⟨tick, htick, hok⟩ := bind_eq_ok.mp hok
  obtain ⟨program, hprogram, hok⟩ := bind_eq_ok.mp hok
  cases hok
  exact hbuilt.program hchannel (intIn_eq_ok.mp htick).2.1 (intIn_eq_ok.mp hprogram).2

/-- Reading a channel builds on what is there. -/
theorem readChannel_built {member : String × Json} (hbuilt : r.Built)
    (hok : readChannel r member = .ok r') : r'.Built := by
  obtain ⟨channel, hchannel, hok⟩ := bind_eq_ok.mp hok
  obtain ⟨members, _, hok⟩ := bind_eq_ok.mp hok
  obtain ⟨notes, _, hok⟩ := bind_eq_ok.mp hok
  obtain ⟨r₁, hnotes, hok⟩ := bind_eq_ok.mp hok
  obtain ⟨programs, _, hprograms⟩ := bind_eq_ok.mp hok
  have hlane := readChannelNumber_eq_ok hchannel
  have hbuilt₁ := readItems_built (fun _ _ _ _ => readNote_built hlane) hbuilt hnotes
  exact readItems_built (fun _ _ _ _ => readProgram_built hlane) hbuilt₁ hprograms

private theorem readKeyCommand_built {place : String} {tick : Int} (htick : 0 ≤ tick)
    {key : Option Json} (hbuilt : r.Built)
    (hok : (match key with
      | none => pure r
      | some key => do
        let text ← readKey place key
        pure (r.setCommand tick keyCommand text) : Except Failure Recording) = .ok r') :
    r'.Built := by
  split at hok
  · cases hok
    exact hbuilt
  · obtain ⟨text, _, hok⟩ := bind_eq_ok.mp hok
    cases hok
    exact hbuilt.command htick (fun heq => absurd heq (by decide))

/-- A tempo that is read is a number. -/
theorem isText_of_readTempo {place : String} {value : Json} {text : String}
    (hok : readTempo place value = .ok text) : Tempo.IsText text := by
  unfold readTempo at hok
  split at hok
  · split at hok
    · cases hok
    · obtain ⟨x, _, hok⟩ := bind_eq_ok.mp hok
      exact Tempo.isText_of_text hok
  · split at hok
    · cases hok
    · exact Tempo.isText_of_text hok
  · cases hok

/-- Reading global commands gives them. -/
theorem readCommands_built {place : String} {value : Json} (hbuilt : r.Built)
    (hok : readCommands place r value = .ok r') : r'.Built := by
  obtain ⟨members, _, hok⟩ := bind_eq_ok.mp hok
  obtain ⟨tick, htick, hok⟩ := bind_eq_ok.mp hok
  have hstart := (intIn_eq_ok.mp htick).2.1
  simp only at hok
  split at hok
  · exact readKeyCommand_built hstart hbuilt hok
  · obtain ⟨text, htext, hok⟩ := bind_eq_ok.mp hok
    have htempo := isText_of_readTempo htext
    exact readKeyCommand_built hstart (hbuilt.command hstart (fun _ => htempo)) hok

/-- A recording that is read from a document is built with every number in its range. -/
theorem ofDocument_built {document : Json} (hok : ofDocument document = .ok r) : r.Built := by
  obtain ⟨members, _, hok⟩ := bind_eq_ok.mp hok
  obtain ⟨resolution, hresolution, hok⟩ := bind_eq_ok.mp hok
  obtain ⟨endTick, _, hok⟩ := bind_eq_ok.mp hok
  obtain ⟨r₀, hnew, hok⟩ := bind_eq_ok.mp hok
  obtain ⟨channels, _, hok⟩ := bind_eq_ok.mp hok
  obtain ⟨r₁, hchannels, hok⟩ := bind_eq_ok.mp hok
  obtain ⟨globals, _, hglobals⟩ := bind_eq_ok.mp hok
  have hpos : 0 < resolution := by
    have := (intIn_eq_ok.mp hresolution).2
    omega
  have hbuilt₀ : r₀.Built := by
    rw [(new_eq_ok.mp hnew).2]
    exact .new hpos
  have hbuilt₁ := foldlM_invariant (fun _ _ _ _ => readChannel_built) hbuilt₀ hchannels
  exact readItems_built (fun _ _ _ _ => readCommands_built) hbuilt₁ hglobals

/-- A recording that is read from a document is well formed. -/
theorem ofDocument_wellFormed {document : Json} (hok : ofDocument document = .ok r) :
    r.WellFormed :=
  (ofDocument_built hok).wellFormed

end Recording

/-- The document of a sequence at 480 ticks to a quarter note: the notes of each channel, each by
its tick, its pitch and its length, and the tempos by their ticks. -/
def Json.ofSequence (channels : List (String × List (Int × Int × Int)))
    (tempos : List (Int × Int)) : Json :=
  let note (n : Int × Int × Int) : Json :=
    .obj [("tick", .int n.1), ("note", .int n.2.1), ("length", .int n.2.2)]
  .obj
    [("resolution", .int 480),
      ("channels", .obj (channels.map (fun c => (c.1, .obj [("notes", .arr (c.2.map note))])))),
      ("globals", .arr (tempos.map (fun t => .obj [("tick", .int t.1), ("tempo", .int t.2)])))]

end Transcription
