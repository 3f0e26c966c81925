import Transcription.Proofs.Recording.Entries
import Transcription.Proofs.Reading.Printing

/-!
# The order of a document

A document lists its channels, their notes and programs, and its global commands in some order. What
is read from it are its entries, one addition after the other, so a document with the same entries
in another order is read as the same recording, unless two entries give a value to one thing.
-/

namespace Transcription

namespace Json

/-! ### Documents in another order -/

/-- Arrays with the same items in any order, or the same value. -/
def SameItems : Json → Json → Prop
  | arr items, arr items' => items.Perm items'
  | value, value' => value = value'

/-- Members with the same names, whose values are related as the name says. -/
def SameMembers (related : String → Json → Json → Prop) (members members' : List (String × Json)) :
    Prop :=
  List.Forall₂ (fun m m' => m.1 = m'.1 ∧ related m.1 m.2 m'.2) members members'

/-- How the members of a channel are related: the notes and the programs may be in any order. -/
def channelMember (name : String) : Json → Json → Prop :=
  if name = "notes" ∨ name = "programs" then SameItems else Eq

theorem channelMember_notes : channelMember "notes" = SameItems := if_pos (by decide)

theorem channelMember_programs : channelMember "programs" = SameItems := if_pos (by decide)

/-- Channels with the same notes and the same programs, each in any order. -/
def SameChannel : Json → Json → Prop
  | obj members, obj members' => SameMembers channelMember members members'
  | value, value' => value = value'

/-- The same channels in any order. -/
def SameChannels : Json → Json → Prop
  | obj channels, obj channels' =>
    ∃ moved, channels.Perm moved ∧ SameMembers (fun _ => SameChannel) moved channels'
  | value, value' => value = value'

/-- How the members of a document are related: the channels, what is in them, and the global
commands may be in any order. -/
def documentMember (name : String) : Json → Json → Prop :=
  if name = "channels" then SameChannels else if name = "globals" then SameItems else Eq

theorem documentMember_channels : documentMember "channels" = SameChannels := if_pos rfl

theorem documentMember_globals : documentMember "globals" = SameItems :=
  (if_neg (by decide)).trans (if_pos rfl)

theorem documentMember_resolution : documentMember "resolution" = Eq :=
  (if_neg (by decide)).trans (if_neg (by decide))

theorem documentMember_endTick : documentMember "end_tick" = Eq :=
  (if_neg (by decide)).trans (if_neg (by decide))

/-- Documents that differ only in the order of their channels, of the notes and of the programs of
each channel, and of their global commands. -/
def SameButOrder : Json → Json → Prop
  | obj members, obj members' => SameMembers documentMember members members'
  | value, value' => value = value'

/-- Related members are related look-ups. -/
theorem SameMembers.rel_member? {related : String → Json → Json → Prop}
    {members members' : List (String × Json)} (h : SameMembers related members members')
    (name : String) : Option.Rel (related name) (member? members name) (member? members' name) := by
  unfold member?
  induction h with
  | nil => exact .none
  | @cons m m' rest rest' hm _ ih =>
    obtain ⟨hname, hrelated⟩ := hm
    by_cases heq : m.1 = name
    · have heq' : m'.1 = name := hname ▸ heq
      simp only [List.find?_cons, heq, heq', decide_true, Option.map_some]
      exact .some (heq ▸ hrelated)
    · have heq' : m'.1 ≠ name := hname ▸ heq
      simpa only [List.find?_cons, heq, heq', decide_false] using ih

/-- The items of a member. Without an array under the name there are none. -/
def itemsIn (members : List (String × Json)) (name : String) : List Json :=
  match member? members name with
  | some (arr items) => items
  | _ => []

/-- The integer of a member. -/
def intIn? (members : List (String × Json)) (name : String) : Option Int :=
  match member? members name with
  | some (int n) => some n
  | _ => none

end Json

namespace Recording

/-! ### Entries of documents -/

/-- The note of an entry. Without a velocity it has a velocity of 100. -/
def noteEntry (channel : Int) : Json → List Addition
  | .obj members =>
    match Json.intIn? members "tick", Json.intIn? members "note",
      if (Json.member? members "velocity").isNone then some 100
        else Json.intIn? members "velocity",
      Json.intIn? members "length" with
    | some tick, some pitch, some velocity, some length =>
      [.note channel tick pitch velocity length]
    | _, _, _, _ => []
  | _ => []

/-- The program of an entry. -/
def programEntry (channel : Int) : Json → List Addition
  | .obj members =>
    match Json.intIn? members "tick", Json.intIn? members "program" with
    | some tick, some number => [.program channel tick number]
    | _, _ => []
  | _ => []

/-- The notes and the programs of a channel. -/
def channelEntries (member : String × Json) : List Addition :=
  match Text.readInt member.1, member.2 with
  | .ok channel, .obj members =>
    (Json.itemsIn members "notes").flatMap (noteEntry channel) ++
      (Json.itemsIn members "programs").flatMap (programEntry channel)
  | _, _ => []

/-- The tempo and the key of an entry. -/
def commandEntries : Json → List Addition
  | .obj members =>
    match Json.intIn? members "tick" with
    | some tick =>
      (((Json.member? members tempoCommand).bind (fun v => (readTempo "" v).toOption)).map
        (.command tick tempoCommand)).toList ++
      (((Json.member? members keyCommand).bind (fun v => (readKey "" v).toOption)).map
        (.command tick keyCommand)).toList
    | none => []
  | _ => []

/-- All entries of a document. -/
def documentEntries : Json → List Addition
  | .obj members =>
    (match Json.member? members "channels" with
      | some (.obj channels) => channels.flatMap channelEntries
      | _ => []) ++
    (Json.itemsIn members "globals").flatMap commandEntries
  | _ => []

/-! ### Entries that are given -/

variable {r r' : Recording}

/-- If every item is listed with what it gives, all of them are. -/
theorem flatMap_eq_of_gives {α : Type} {gives : α → List Addition → Prop}
    {entriesOf : α → List Addition} {items : List α} {given : List (List Addition)}
    (hall : List.Forall₂ gives items given)
    (hlisted : ∀ item added, gives item added → entriesOf item = added) :
    items.flatMap entriesOf = given.flatten := by
  induction hall with
  | nil => rfl
  | cons hgives _ ih => rw [List.flatMap_cons, List.flatten_cons, hlisted _ _ hgives, ih]

/-- An integer that is given is the integer of its member. -/
theorem intIn?_of_hasInt {members : List (String × Json)} {name : String} {low high n : Int}
    (h : Json.HasInt members name low high n) : Json.intIn? members name = some n := by
  rw [Json.intIn?, h.1]

/-- The items that a member has are its items. -/
theorem itemsIn_of_hasItems {members : List (String × Json)} {name : String} {items : List Json}
    (h : Json.HasItems members name items) : Json.itemsIn members name = items := by
  unfold Json.itemsIn
  rcases h with hmember | ⟨hmember, rfl⟩
  · rw [hmember]
  · rw [hmember]

/-- A note that is given is listed. -/
theorem GivesNote.noteEntry_eq {channel : Int} {item : Json} {added : List Addition}
    (h : GivesNote channel item added) : noteEntry channel item = added := by
  obtain ⟨members, tick, pitch, velocity, length, rfl, htick, hpitch, hvelocity, hlength, rfl⟩ := h
  have hvelocity' : (if (Json.member? members "velocity").isNone then some 100
      else Json.intIn? members "velocity") = some velocity := by
    rcases hvelocity with hvelocity | ⟨hmember, rfl⟩
    · rw [intIn?_of_hasInt hvelocity, hvelocity.1]
      rfl
    · rw [hmember]
      rfl
  simp only [noteEntry, intIn?_of_hasInt htick, intIn?_of_hasInt hpitch, hvelocity',
    intIn?_of_hasInt hlength]

/-- A program that is given is listed. -/
theorem GivesProgram.programEntry_eq {channel : Int} {item : Json} {added : List Addition}
    (h : GivesProgram channel item added) : programEntry channel item = added := by
  obtain ⟨members, tick, number, rfl, htick, hnumber, rfl⟩ := h
  simp only [programEntry, intIn?_of_hasInt htick, intIn?_of_hasInt hnumber]

/-- What is given for a channel is listed. -/
theorem GivesChannel.channelEntries_eq {member : String × Json} {added : List Addition}
    (h : GivesChannel member added) : channelEntries member = added := by
  obtain ⟨channel, members, notes, struck, programs, chosen, hnumber, -, hmembers, hnotes, hstruck,
    hprograms, hchosen, rfl⟩ := h
  rw [channelEntries, hnumber, hmembers]
  simp only [itemsIn_of_hasItems hnotes, itemsIn_of_hasItems hprograms]
  rw [flatMap_eq_of_gives hstruck (fun _ _ => GivesNote.noteEntry_eq),
    flatMap_eq_of_gives hchosen (fun _ _ => GivesProgram.programEntry_eq)]

/-- A tempo that is given is read. -/
theorem GivesTempo.readTempo_eq {value : Json} {text : String} (h : GivesTempo value text) :
    readTempo "" value = .ok text := by
  cases value with
  | int n =>
    obtain ⟨hpos, htext⟩ := h
    rw [readTempo, if_neg (by omega), htext]
  | real x =>
    obtain ⟨hpos, htext⟩ := h
    rw [readTempo, if_neg (Bool.eq_false_iff.mp hpos), htext]
  | _ => cases h

/-- A key that is given is read. -/
theorem GivesKey.readKey_eq {value : Json} {text : String} (h : GivesKey value text) :
    readKey "" value = .ok text := by
  obtain ⟨rfl, hne⟩ := h
  exact if_neg hne

/-- A command that is given is listed. -/
theorem GivesCommand.toList_eq {tick : Int} {name : String} {gives : Json → String → Prop}
    {read : Json → Except Failure String} {value : Option Json} {added : List Addition}
    (h : GivesCommand tick name gives value added)
    (hread : ∀ value text, gives value text → read value = .ok text) :
    ((value.bind (fun v => (read v).toOption)).map (.command tick name)).toList = added := by
  cases value with
  | none => exact Eq.symm h
  | some value =>
    obtain ⟨text, hgives, rfl⟩ := h
    rw [Option.bind_some, hread value text hgives]
    rfl

/-- Commands that are given are listed. -/
theorem GivesCommands.commandEntries_eq {item : Json} {added : List Addition}
    (h : GivesCommands item added) : commandEntries item = added := by
  obtain ⟨members, tick, tempos, keys, rfl, htick, htempos, hkeys, rfl⟩ := h
  rw [commandEntries, intIn?_of_hasInt htick]
  exact congrArg₂ (· ++ ·) (htempos.toList_eq (fun _ _ => GivesTempo.readTempo_eq))
    (hkeys.toList_eq (fun _ _ => GivesKey.readKey_eq))

/-- What a document gives is what it lists. -/
theorem Gives.documentEntries_eq {members : List (String × Json)} {added : List Addition}
    (h : Gives members added) : documentEntries (.obj members) = added := by
  obtain ⟨channels, played, items, given, hchannels, hplayed, hitems, hgiven, rfl⟩ := h
  have hlisted : (match Json.member? members "channels" with
      | some (.obj channels) => channels.flatMap channelEntries
      | _ => []) = played.flatten := by
    rw [← flatMap_eq_of_gives hplayed (fun _ _ => GivesChannel.channelEntries_eq)]
    rcases hchannels with hmember | ⟨hmember, rfl⟩
    · rw [hmember]
    · rw [hmember]
      rfl
  rw [documentEntries, hlisted, itemsIn_of_hasItems hitems,
    flatMap_eq_of_gives hgiven (fun _ _ => GivesCommands.commandEntries_eq)]

/-- A document that is read adds its entries to an empty recording. -/
theorem ofDocument_eq_addAll {members : List (String × Json)}
    (hok : ofDocument (.obj members) = .ok r) :
    ∃ resolution endTick, Json.HasInt members "resolution" 1 65535 resolution ∧
      GivesEnd members endTick ∧
      r = addAll { resolution, endTick } (documentEntries (.obj members)) := by
  obtain ⟨_, added, resolution, endTick, heq, hgives, hresolution, hend, hr⟩ :=
    exists_gives_of_ofDocument hok
  cases heq
  exact ⟨resolution, endTick, hresolution, hend, by rw [hgives.documentEntries_eq, hr]⟩

/-- Documents with the same end have one end. -/
theorem GivesEnd.unique {members members' : List (String × Json)} {endTick endTick' : Option Int}
    (hend : GivesEnd members endTick) (hend' : GivesEnd members' endTick')
    (hsame : Json.member? members' "end_tick" = Json.member? members "end_tick") :
    endTick' = endTick := by
  have hgiven : Json.given? members' "end_tick" = Json.given? members "end_tick" := by
    rw [Json.given?, hsame, ← Json.given?]
  cases endTick with
  | none =>
    cases endTick' with
    | none => rfl
    | some n' =>
      rw [hend, hend'.1] at hgiven
      cases hgiven
  | some n =>
    cases endTick' with
    | none =>
      rw [hend.1, hend'] at hgiven
      cases hgiven
    | some n' =>
      rw [hend.1, hend'.1] at hgiven
      cases hgiven
      rfl

/-! ### Entries in another order -/

/-- Members with the same items list them in any order. -/
theorem perm_itemsIn {members members' : List (String × Json)} {name : String}
    (hrel : Option.Rel Json.SameItems (Json.member? members name) (Json.member? members' name)) :
    (Json.itemsIn members name).Perm (Json.itemsIn members' name) := by
  unfold Json.itemsIn
  generalize Json.member? members name = value, Json.member? members' name = value' at hrel ⊢
  cases hrel with
  | none => exact .nil
  | @some v v' hsame =>
    cases v with
    | arr items =>
      cases v' with
      | arr items' => exact hsame
      | _ => cases hsame
    | _ =>
      cases v' with
      | arr items' => cases hsame
      | _ => exact .nil

/-- Channels with the same notes and programs have their entries in any order. -/
theorem perm_channelEntries {m m' : String × Json} (hname : m.1 = m'.1)
    (hsame : Json.SameChannel m.2 m'.2) : (channelEntries m).Perm (channelEntries m') := by
  obtain ⟨key, value⟩ := m
  obtain ⟨key', value'⟩ := m'
  cases hname
  unfold channelEntries
  cases hread : Text.readInt key with
  | error e => exact .nil
  | ok channel =>
    cases value with
    | obj members =>
      cases value' with
      | obj members' =>
        have hmembers : Json.SameMembers Json.channelMember members members' := hsame
        have hnotes := hmembers.rel_member? "notes"
        have hprograms := hmembers.rel_member? "programs"
        rw [Json.channelMember_notes] at hnotes
        rw [Json.channelMember_programs] at hprograms
        exact ((perm_itemsIn hnotes).flatMap_right _).append
          ((perm_itemsIn hprograms).flatMap_right _)
      | _ => cases hsame
    | _ =>
      cases value' with
      | obj members' => cases hsame
      | _ => exact .nil

/-- Channels in another order have their entries in another order. -/
theorem perm_flatMap_channelEntries {channels channels' : List (String × Json)}
    (hsame : Json.SameChannels (.obj channels) (.obj channels')) :
    (channels.flatMap channelEntries).Perm (channels'.flatMap channelEntries) := by
  obtain ⟨moved, hmoved, hsame⟩ := hsame
  refine (hmoved.flatMap_right channelEntries).trans ?_
  clear hmoved
  induction hsame with
  | nil => exact .nil
  | cons hm _ ih => exact (perm_channelEntries hm.1 hm.2).append ih

/-- Documents in another order have the same resolution and the same end, and channels and global
commands in another order. -/
theorem rel_of_sameButOrder {members members' : List (String × Json)}
    (hsame : Json.SameButOrder (.obj members) (.obj members')) :
    Json.member? members' "resolution" = Json.member? members "resolution" ∧
      Json.member? members' "end_tick" = Json.member? members "end_tick" ∧
      Option.Rel Json.SameChannels (Json.member? members "channels")
        (Json.member? members' "channels") ∧
      Option.Rel Json.SameItems (Json.member? members "globals")
        (Json.member? members' "globals") := by
  have hmembers : Json.SameMembers Json.documentMember members members' := hsame
  have heq {o o' : Option Json} (h : Option.Rel Eq o o') : o' = o := by
    cases h with
    | none => rfl
    | some h => rw [h]
  have hresolution := hmembers.rel_member? "resolution"
  have hend := hmembers.rel_member? "end_tick"
  have hchannels := hmembers.rel_member? "channels"
  have hglobals := hmembers.rel_member? "globals"
  rw [Json.documentMember_resolution] at hresolution
  rw [Json.documentMember_endTick] at hend
  rw [Json.documentMember_channels] at hchannels
  rw [Json.documentMember_globals] at hglobals
  exact ⟨heq hresolution, heq hend, hchannels, hglobals⟩

/-- A document in another order has its entries in another order. -/
theorem perm_documentEntries {members members' : List (String × Json)}
    (hsame : Json.SameButOrder (.obj members) (.obj members')) :
    (documentEntries (.obj members)).Perm (documentEntries (.obj members')) := by
  obtain ⟨-, -, hchannels, hglobals⟩ := rel_of_sameButOrder hsame
  refine .append ?_ ((perm_itemsIn hglobals).flatMap_right _)
  generalize Json.member? members "channels" = value, Json.member? members' "channels" = value'
    at hchannels ⊢
  cases hchannels with
  | none => exact .nil
  | @some v v' hsame =>
    cases v with
    | obj channels =>
      cases v' with
      | obj channels' => exact perm_flatMap_channelEntries hsame
      | _ => cases hsame
    | _ =>
      cases v' with
      | obj channels' => cases hsame
      | _ => exact .nil

/-- A document in another order is read as the same recording, if each of its entries gives a value
to something else. -/
theorem ofDocument_reordered {document document' : Json} (hsame : document.SameButOrder document')
    (hok : ofDocument document = .ok r) (hok' : ofDocument document' = .ok r')
    (hslots : ((documentEntries document).map Addition.slot).Nodup) : r' = r := by
  cases document with
  | obj members =>
    cases document' with
    | obj members' =>
      obtain ⟨hresolution, hend, -, -⟩ := rel_of_sameButOrder hsame
      obtain ⟨resolution₁, endTick₁, hresolution₁, hend₁, hr⟩ := ofDocument_eq_addAll hok
      obtain ⟨resolution₂, endTick₂, hresolution₂, hend₂, hr'⟩ := ofDocument_eq_addAll hok'
      have hsame₁ : some (Json.int resolution₂) = some (Json.int resolution₁) :=
        hresolution₂.1.symm.trans (hresolution.trans hresolution₁.1)
      cases hsame₁
      cases hend₁.unique hend₂ hend
      rw [hr, hr', addAll_perm (perm_documentEntries hsame) hslots]
    | _ => cases hsame
  | _ =>
    obtain ⟨members, hmembers, -⟩ := bind_eq_ok.mp hok
    cases hmembers

/-- **The order of a document does not matter.** Two documents that differ only in the order of
their channels, of the notes and of the programs of each channel, and of their global commands are
read as the same recording, if no two notes have one channel, one tick and one pitch, no two
programs one channel and one tick, and no two commands one tick and one name. So under any settings
they have the same transcript. -/
theorem transcribe_reordered {document document' : Json} (hsame : document.SameButOrder document')
    (hok : ofDocument document = .ok r) (hok' : ofDocument document' = .ok r')
    (hslots : ((documentEntries document).map Addition.slot).Nodup) :
    r' = r ∧ ∀ settings, ∃ t t', r.transcribe settings = .ok t ∧ r'.transcribe settings = .ok t' ∧
      t'.text = t.text ∧ t'.warnings = t.warnings ∧ t'.statistics = t.statistics := by
  have hr := ofDocument_reordered hsame hok hok' hslots
  refine ⟨hr, fun settings => ?_⟩
  obtain ⟨slices, s, _, hslices, _, hscore, _⟩ := exists_paged (ofDocument_built hok) settings
  have htranscribe : r.transcribe settings = _ :=
    bind_eq_ok.mpr ⟨slices, hslices, bind_eq_ok.mpr ⟨s, hscore, rfl⟩⟩
  exact ⟨_, _, htranscribe, hr ▸ htranscribe, rfl, rfl, rfl⟩

/-- A document whose notes are on two channels of one number, with a note that is struck again where
it ends, and with a key and a tempo at one tick. -/
def scattered : Json :=
  .obj
    [("resolution", .int 480),
      ("channels", .obj
        [("0", .obj
          [("notes", .arr
            [.obj [("tick", .int 0), ("note", .int 60), ("length", .int 480)],
              .obj [("tick", .int 480), ("note", .int 60), ("length", .int 480)]]),
            ("programs", .arr
              [.obj [("tick", .int 0), ("program", .int 24)],
                .obj [("tick", .int 480), ("program", .int 40)]])]),
          ("+0", .obj
            [("notes", .arr
              [.obj [("tick", .int 240), ("note", .int 60), ("length", .int 240)]])])]),
      ("globals", .arr
        [.obj [("tick", .int 480), ("key", .str "2/0")],
          .obj [("tick", .int 480), ("tempo", .int 90)]])]

/-- The same document with its channels, the notes and the programs of the first one, and the global
commands in the opposite order. -/
def gathered : Json :=
  .obj
    [("resolution", .int 480),
      ("channels", .obj
        [("+0", .obj
            [("notes", .arr [.obj [("tick", .int 240), ("note", .int 60), ("length", .int 240)]])]),
          ("0", .obj
          [("notes", .arr
            [.obj [("tick", .int 480), ("note", .int 60), ("length", .int 480)],
              .obj [("tick", .int 0), ("note", .int 60), ("length", .int 480)]]),
            ("programs", .arr
              [.obj [("tick", .int 480), ("program", .int 40)],
                .obj [("tick", .int 0), ("program", .int 24)]])])]),
      ("globals", .arr
        [.obj [("tick", .int 480), ("tempo", .int 90)],
          .obj [("tick", .int 480), ("key", .str "2/0")]])]

/-- Both documents are transcribed alike. -/
theorem transcribe_reordered_scattered :
    ∃ r r' t t', ofDocument scattered = .ok r ∧ ofDocument gathered = .ok r' ∧
      r.transcribe {} = .ok t ∧ r'.transcribe {} = .ok t' ∧ t'.text = t.text := by
  have hsame : scattered.SameButOrder gathered := by
    refine .cons ⟨rfl, ?_⟩ (.cons ⟨rfl, ?_⟩ (.cons ⟨rfl, ?_⟩ .nil))
    · rw [Json.documentMember_resolution]
    · rw [Json.documentMember_channels]
      refine ⟨_, .swap _ _ [], .cons ⟨rfl, .cons ⟨rfl, ?_⟩ .nil⟩ (.cons ⟨rfl, ?_⟩ .nil)⟩
      · rw [Json.channelMember_notes]
        exact .refl _
      · refine .cons ⟨rfl, ?_⟩ (.cons ⟨rfl, ?_⟩ .nil)
        · rw [Json.channelMember_notes]
          exact .swap _ _ []
        · rw [Json.channelMember_programs]
          exact .swap _ _ []
    · rw [Json.documentMember_globals]
      exact .swap _ _ []
  obtain ⟨r, hok, _⟩ := exists_eq_ok
    (show (ofDocument scattered).toOption.any (fun _ => true) = true by decide +kernel)
  obtain ⟨r', hok', _⟩ := exists_eq_ok
    (show (ofDocument gathered).toOption.any (fun _ => true) = true by decide +kernel)
  obtain ⟨_, hsettings⟩ := transcribe_reordered hsame hok hok' (by decide +kernel)
  obtain ⟨t, t', ht, ht', htext, _⟩ := hsettings {}
  exact ⟨r, r', t, t', hok, hok', ht, ht', htext⟩

end Recording

end Transcription
