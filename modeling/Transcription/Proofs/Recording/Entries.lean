import Transcription.Proofs.Recording.Additions

/-!
# What a document gives

A document gives its entries one after the other: the notes and then the programs of each of its
channels, and after all channels its global commands. Every item of an array gives what it has to,
with its numbers in their ranges, and no item is passed over. A recording that is read from a
document is the empty one of its resolution and its end, to which exactly these entries were added
in their order.
-/

namespace Transcription

namespace Json

/-- The items of a member that is an array; without the member there are none. -/
def HasItems (members : List (String × Json)) (name : String) (items : List Json) : Prop :=
  member? members name = some (arr items) ∨ member? members name = none ∧ items = []

/-- The members of a member that is an object; without the member there are none. -/
def HasMembers (members : List (String × Json)) (name : String) (inner : List (String × Json)) :
    Prop :=
  member? members name = some (obj inner) ∨ member? members name = none ∧ inner = []

/-- A member is an integer in a range. -/
def HasInt (members : List (String × Json)) (name : String) (low high n : Int) : Prop :=
  member? members name = some (int n) ∧ low ≤ n ∧ n ≤ high

end Json

namespace Recording

/-! ### Entries -/

/-- An item gives a note. Without a velocity the note has a velocity of 100. -/
def GivesNote (channel : Int) (item : Json) (added : List Addition) : Prop :=
  ∃ members tick pitch velocity length, item = .obj members ∧
    Json.HasInt members "tick" 0 maxTick tick ∧ Json.HasInt members "note" 0 127 pitch ∧
    (Json.HasInt members "velocity" 1 127 velocity ∨
      Json.member? members "velocity" = none ∧ velocity = 100) ∧
    Json.HasInt members "length" 1 maxTick length ∧
    added = [.note channel tick pitch velocity length]

/-- An item gives a program. -/
def GivesProgram (channel : Int) (item : Json) (added : List Addition) : Prop :=
  ∃ members tick number, item = .obj members ∧ Json.HasInt members "tick" 0 maxTick tick ∧
    Json.HasInt members "program" 0 127 number ∧ added = [.program channel tick number]

/-- A value gives a tempo: a positive number, in the text of a tempo. -/
def GivesTempo : Json → String → Prop
  | .int n, text => 0 < n ∧ Tempo.intText n = .ok text
  | .real x, text => x.isNonpositive = false ∧ Tempo.text x = .ok text
  | _, _ => False

/-- A value gives a key: a text that is not empty, as it is. -/
def GivesKey (value : Json) (text : String) : Prop := value = .str text ∧ text ≠ ""

/-- A value, if there is one, gives a command with its text. -/
def GivesCommand (tick : Int) (name : String) (gives : Json → String → Prop) :
    Option Json → List Addition → Prop
  | none, added => added = []
  | some value, added => ∃ text, gives value text ∧ added = [.command tick name text]

/-- An item gives the commands at a tick: a tempo, if it has one, and then a key, if it has one. -/
def GivesCommands (item : Json) (added : List Addition) : Prop :=
  ∃ members tick tempos keys, item = .obj members ∧ Json.HasInt members "tick" 0 maxTick tick ∧
    GivesCommand tick tempoCommand GivesTempo (Json.member? members tempoCommand) tempos ∧
    GivesCommand tick keyCommand GivesKey (Json.member? members keyCommand) keys ∧
    added = tempos ++ keys

/-- A member of the channels gives the notes and the programs of the channel that its name
denotes. -/
def GivesChannel (member : String × Json) (added : List Addition) : Prop :=
  ∃ channel members notes struck programs chosen,
    Text.readInt member.1 = .ok channel ∧ (0 ≤ channel ∧ channel ≤ 15) ∧
    member.2 = .obj members ∧
    Json.HasItems members "notes" notes ∧ List.Forall₂ (GivesNote channel) notes struck ∧
    Json.HasItems members "programs" programs ∧
    List.Forall₂ (GivesProgram channel) programs chosen ∧
    added = struck.flatten ++ chosen.flatten

/-- The members of a document give its entries in their order. -/
def Gives (members : List (String × Json)) (added : List Addition) : Prop :=
  ∃ channels played items given,
    Json.HasMembers members "channels" channels ∧ List.Forall₂ GivesChannel channels played ∧
    Json.HasItems members "globals" items ∧ List.Forall₂ GivesCommands items given ∧
    added = played.flatten ++ given.flatten

/-- The members of a document say where its sequence ends, if they do. -/
def GivesEnd (members : List (String × Json)) : Option Int → Prop
  | none => Json.given? members "end_tick" = none
  | some n => Json.given? members "end_tick" = some (.int n) ∧ 1 ≤ n ∧ n ≤ maxTick

/-! ### Reading entries -/

variable {r r' : Recording}

/-- To add two lists of additions is to add the first one and then the second one. -/
theorem addAll_append (r : Recording) (added added' : List Addition) :
    r.addAll (added ++ added') = (r.addAll added).addAll added' :=
  List.foldl_append

/-- A command that is a tempo or a key is not refused. -/
theorem addAll_command {tick : Int} {name value : String}
    (hname : name = tempoCommand ∨ name = keyCommand) :
    r.addAll [.command tick name value] = r.setCommand tick name value := by
  simp only [addAll, List.foldl_cons, List.foldl_nil, Addition.addTo, addCommand, if_pos hname]
  rfl

/-- If every item that is read adds what it gives, all of them do. -/
theorem exists_gives_of_foldlM {α : Type} {read : Recording → α → Except Failure Recording}
    {gives : α → List Addition → Prop} {items : List α} (hok : items.foldlM read r = .ok r')
    (hread : ∀ r a r', read r a = .ok r' → ∃ added, gives a added ∧ r' = r.addAll added) :
    ∃ given, List.Forall₂ gives items given ∧ r' = r.addAll given.flatten := by
  induction items generalizing r with
  | nil =>
    cases hok
    exact ⟨[], .nil, rfl⟩
  | cons a items ih =>
    rw [List.foldlM_cons] at hok
    obtain ⟨r₁, ha, hrest⟩ := bind_eq_ok.mp hok
    obtain ⟨added, hgives, rfl⟩ := hread r a r₁ ha
    obtain ⟨given, hall, rfl⟩ := ih hrest
    refine ⟨added :: given, .cons hgives hall, ?_⟩
    rw [List.flatten_cons, addAll_append]

/-- If every item of an array that is read adds what it gives, all of them do. -/
theorem exists_gives_of_readItems {read : String → Recording → Json → Except Failure Recording}
    {gives : Json → List Addition → Prop} {place : String} {items : List Json}
    (hok : readItems read place r items = .ok r')
    (hread : ∀ place r item r', read place r item = .ok r' →
      ∃ added, gives item added ∧ r' = r.addAll added) :
    ∃ given, List.Forall₂ gives items given ∧ r' = r.addAll given.flatten := by
  obtain ⟨given, hall, hr'⟩ : ∃ given,
      List.Forall₂ (fun item : Json × Nat => gives item.1) items.zipIdx given ∧
        r' = r.addAll given.flatten :=
    exists_gives_of_foldlM hok (fun r item r' => hread _ r item.1 r')
  refine ⟨given, ?_, hr'⟩
  rw [← List.zipIdx_map_fst 0 items]
  exact List.forall₂_map_left_iff.mpr hall

/-- A note that is read is given and added. -/
theorem exists_gives_of_readNote {channel : Int} {place : String} {item : Json}
    (hok : readNote channel place r item = .ok r') :
    ∃ added, GivesNote channel item added ∧ r' = r.addAll added := by
  obtain ⟨members, hmembers, hok⟩ := bind_eq_ok.mp hok
  obtain ⟨tick, htick, hok⟩ := bind_eq_ok.mp hok
  obtain ⟨pitch, hpitch, hok⟩ := bind_eq_ok.mp hok
  obtain ⟨velocity, hvelocity, hok⟩ := bind_eq_ok.mp hok
  obtain ⟨length, hlength, hok⟩ := bind_eq_ok.mp hok
  cases hok
  refine ⟨_, ⟨members, tick, pitch, velocity, length, membersOf_eq_ok.mp hmembers,
    intIn_eq_ok.mp htick, intIn_eq_ok.mp hpitch, ?_, intIn_eq_ok.mp hlength, rfl⟩, rfl⟩
  obtain ⟨hvalue, hrange⟩ := intIn_eq_ok.mp hvelocity
  cases hmember : Json.member? members "velocity" with
  | none =>
    rw [hmember] at hvalue
    cases hvalue
    exact Or.inr ⟨rfl, rfl⟩
  | some value =>
    rw [hmember] at hvalue
    cases hvalue
    exact Or.inl ⟨hmember, hrange⟩

/-- A program that is read is given and added. -/
theorem exists_gives_of_readProgram {channel : Int} {place : String} {item : Json}
    (hok : readProgram channel place r item = .ok r') :
    ∃ added, GivesProgram channel item added ∧ r' = r.addAll added := by
  obtain ⟨members, hmembers, hok⟩ := bind_eq_ok.mp hok
  obtain ⟨tick, htick, hok⟩ := bind_eq_ok.mp hok
  obtain ⟨number, hnumber, hok⟩ := bind_eq_ok.mp hok
  cases hok
  exact ⟨_, ⟨members, tick, number, membersOf_eq_ok.mp hmembers, intIn_eq_ok.mp htick,
    intIn_eq_ok.mp hnumber, rfl⟩, rfl⟩

/-- The channel that is read is the one that its name denotes, and it has a lane. -/
theorem readInt_of_readChannelNumber {place key : String} {channel : Int}
    (hok : readChannelNumber place key = .ok channel) :
    Text.readInt key = .ok channel ∧ 0 ≤ channel ∧ channel ≤ 15 := by
  refine ⟨?_, readChannelNumber_eq_ok hok⟩
  unfold readChannelNumber at hok
  split at hok
  · cases hok
  · rename_i n hread
    cases (intIn_eq_ok.mp hok).1
    exact hread

/-- The notes and the programs of a channel that is read are given and added. -/
theorem exists_gives_of_readChannel {member : String × Json} (hok : readChannel r member = .ok r') :
    ∃ added, GivesChannel member added ∧ r' = r.addAll added := by
  obtain ⟨channel, hchannel, hok⟩ := bind_eq_ok.mp hok
  obtain ⟨members, hmembers, hok⟩ := bind_eq_ok.mp hok
  obtain ⟨notes, hnotes, hok⟩ := bind_eq_ok.mp hok
  obtain ⟨r₁, hr₁, hok⟩ := bind_eq_ok.mp hok
  obtain ⟨programs, hprograms, hok⟩ := bind_eq_ok.mp hok
  obtain ⟨hnumber, hlane⟩ := readInt_of_readChannelNumber hchannel
  obtain ⟨struck, hstruck, rfl⟩ :=
    exists_gives_of_readItems hr₁ (fun _ _ _ _ => exists_gives_of_readNote)
  obtain ⟨chosen, hchosen, rfl⟩ :=
    exists_gives_of_readItems hok (fun _ _ _ _ => exists_gives_of_readProgram)
  exact ⟨_, ⟨channel, members, notes, struck, programs, chosen, hnumber, hlane,
    membersOf_eq_ok.mp hmembers, itemsOf_eq_ok.mp hnotes, hstruck, itemsOf_eq_ok.mp hprograms,
    hchosen, rfl⟩, (addAll_append ..).symm⟩

/-- A tempo that is read is given. -/
theorem givesTempo_of_readTempo {place : String} {value : Json} {text : String}
    (hok : readTempo place value = .ok text) : GivesTempo value text := by
  unfold readTempo at hok
  split at hok
  · split at hok
    · cases hok
    · rename_i n hpos
      exact ⟨by omega, hok⟩
  · split at hok
    · cases hok
    · rename_i x hpos
      exact ⟨Bool.eq_false_iff.mpr hpos, hok⟩
  · cases hok

/-- A key that is read is given. -/
theorem givesKey_of_readKey {place : String} {value : Json} {text : String}
    (hok : readKey place value = .ok text) : GivesKey value text := by
  unfold readKey at hok
  split at hok
  · split at hok
    · cases hok
    · rename_i hne
      cases hok
      exact ⟨rfl, hne⟩
  · cases hok

/-- A command that is read is given and set, and without a value none is. -/
theorem exists_gives_of_command {read : Json → Except Failure String}
    {gives : Json → String → Prop} {tick : Int} {name : String} {value : Option Json}
    (hname : name = tempoCommand ∨ name = keyCommand)
    (hread : ∀ value text, read value = .ok text → gives value text)
    (hok : (match value with
      | none => pure r
      | some value => do
        let text ← read value
        pure (r.setCommand tick name text) : Except Failure Recording) = .ok r') :
    ∃ added, GivesCommand tick name gives value added ∧ r' = r.addAll added := by
  cases value with
  | none =>
    cases hok
    exact ⟨[], rfl, rfl⟩
  | some value =>
    obtain ⟨text, htext, hok⟩ := bind_eq_ok.mp hok
    cases hok
    exact ⟨_, ⟨text, hread value text htext, rfl⟩, (addAll_command hname).symm⟩

/-- The commands of an item that is read are given and added. -/
theorem exists_gives_of_readCommands {place : String} {item : Json}
    (hok : readCommands place r item = .ok r') :
    ∃ added, GivesCommands item added ∧ r' = r.addAll added := by
  obtain ⟨members, hmembers, hok⟩ := bind_eq_ok.mp hok
  obtain ⟨tick, htick, hok⟩ := bind_eq_ok.mp hok
  obtain ⟨r₁, hr₁, hok⟩ : ∃ r₁, (match Json.member? members tempoCommand with
      | none => pure r
      | some tempo => do
        let text ← readTempo (place ++ ".tempo") tempo
        pure (r.setCommand tick tempoCommand text) : Except Failure Recording) = .ok r₁ ∧
      (match Json.member? members keyCommand with
      | none => pure r₁
      | some key => do
        let text ← readKey (place ++ ".key") key
        pure (r₁.setCommand tick keyCommand text) : Except Failure Recording) = .ok r' := by
    simp only at hok
    cases htempo : Json.member? members tempoCommand with
    | none =>
      rw [htempo] at hok
      exact ⟨r, rfl, hok⟩
    | some tempo =>
      rw [htempo] at hok
      obtain ⟨text, htext, hok⟩ := bind_eq_ok.mp hok
      exact ⟨_, bind_eq_ok.mpr ⟨text, htext, rfl⟩, hok⟩
  obtain ⟨tempos, htempos, rfl⟩ :=
    exists_gives_of_command (Or.inl rfl) (fun _ _ => givesTempo_of_readTempo) hr₁
  obtain ⟨keys, hkeys, rfl⟩ :=
    exists_gives_of_command (Or.inr rfl) (fun _ _ => givesKey_of_readKey) hok
  exact ⟨_, ⟨members, tick, tempos, keys, membersOf_eq_ok.mp hmembers, intIn_eq_ok.mp htick,
    htempos, hkeys, rfl⟩, (addAll_append ..).symm⟩

/-- The end that is read is given. -/
theorem givesEnd_of_readEnd {members : List (String × Json)} {endTick : Option Int}
    (hok : readEnd members = .ok endTick) : GivesEnd members endTick := by
  unfold readEnd at hok
  cases hgiven : Json.given? members "end_tick" with
  | none =>
    rw [hgiven] at hok
    cases hok
    exact hgiven
  | some value =>
    simp only [hgiven] at hok
    cases hend : intIn "end_tick" 1 maxTick (some value) with
    | error e =>
      rw [hend] at hok
      cases hok
    | ok n =>
      rw [hend] at hok
      cases hok
      obtain ⟨hvalue, hrange⟩ := intIn_eq_ok.mp hend
      exact ⟨hgiven.trans hvalue, hrange⟩

/-- A document that is read adds what it gives to an empty recording. -/
theorem exists_gives_of_ofDocument {document : Json} (hok : ofDocument document = .ok r) :
    ∃ members added resolution endTick, document = .obj members ∧ Gives members added ∧
      Json.HasInt members "resolution" 1 65535 resolution ∧ GivesEnd members endTick ∧
      r = addAll { resolution, endTick } added := by
  obtain ⟨members, hmembers, hok⟩ := bind_eq_ok.mp hok
  obtain ⟨resolution, hresolution, hok⟩ := bind_eq_ok.mp hok
  obtain ⟨endTick, hend, hok⟩ := bind_eq_ok.mp hok
  obtain ⟨r₀, hnew, hok⟩ := bind_eq_ok.mp hok
  obtain ⟨channels, hchannels, hok⟩ := bind_eq_ok.mp hok
  obtain ⟨r₁, hr₁, hok⟩ := bind_eq_ok.mp hok
  obtain ⟨items, hitems, hok⟩ := bind_eq_ok.mp hok
  obtain ⟨-, rfl⟩ := new_eq_ok.mp hnew
  obtain ⟨played, hplayed, rfl⟩ :=
    exists_gives_of_foldlM hr₁ (fun _ _ _ => exists_gives_of_readChannel)
  obtain ⟨given, hgiven, rfl⟩ :=
    exists_gives_of_readItems hok (fun _ _ _ _ => exists_gives_of_readCommands)
  have hobject : Json.HasMembers members "channels" channels := by
    have hvalue := membersOf_eq_ok.mp hchannels
    cases hmember : Json.member? members "channels" with
    | none =>
      rw [hmember] at hvalue
      cases hvalue
      exact Or.inr ⟨hmember, rfl⟩
    | some value =>
      rw [hmember] at hvalue
      cases hvalue
      exact Or.inl hmember
  exact ⟨members, _, resolution, endTick, membersOf_eq_ok.mp hmembers,
    ⟨channels, played, items, given, hobject, hplayed, itemsOf_eq_ok.mp hitems, hgiven, rfl⟩,
    intIn_eq_ok.mp hresolution, givesEnd_of_readEnd hend, (addAll_append ..).symm⟩

end Recording

end Transcription
