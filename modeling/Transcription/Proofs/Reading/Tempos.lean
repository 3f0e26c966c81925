import Transcription.Proofs.Reading.KeysInForce
import Transcription.Proofs.Recording.Hundredths
import Transcription.Proofs.Recording.Kept
import Transcription.Proofs.Recording.Rearranged

/-!
# Tempos in a text

The tempo of a slice is written in the text that it is stored with, and stored at a tick is the text
of the last tempo that the document gives there. So what is written is the tempo to the hundredth
exactly when its hundredths are kept.
-/

namespace Transcription

open Number
open Number.Binary64 (nearest)

namespace Json

/-- The number that a tempo is. An integer beyond double precision counts as the nearest number. -/
def tempo? : Json → Option Rat
  | int n =>
    match nearest n with
    | .finite q => some q
    | _ => none
  | real (.finite q) => some q
  | _ => none

/-- The tempo that global commands give, if they are at a tick. -/
def tempoAt? (tick : Int) : Json → Option Json
  | obj members =>
    if intIn? members "tick" = some tick then member? members tempoCommand else none
  | _ => none

/-- The last tempo that a document gives at a tick. -/
def lastTempoAt? (tick : Int) : Json → Option Json
  | obj members => (itemsIn members "globals").reverse.findSome? (tempoAt? tick)
  | _ => none

/-- An integer within double precision is a tempo as it is. -/
theorem tempo?_int {n : Int} (hpos : 0 < n) (hle : n ≤ 2 ^ 53) :
    (int n).tempo? = some (n : Rat) := by
  have hcast : (0 : Rat) < n := by exact_mod_cast hpos
  have hsmall : ¬(Binary64.limit : Rat) ≤ n := by
    have hle' : (n : Rat) ≤ ((2 ^ 53 : Int) : Rat) := by exact_mod_cast hle
    rw [cast_two_pow] at hle'
    exact not_le.mpr (hle'.trans_lt (Binary64.power_lt_limit (by decide)))
  have hnearest := Binary64.nearest_of_pos hcast
  rw [if_neg hsmall, Binary64.nearestPositive_intCast hpos hle] at hnearest
  rw [tempo?, hnearest]

end Json

namespace Recording

/-! ### Tempos that are given -/

/-- A tempo that is given is positive, and its text is a number. This is the tempo to the hundredth
exactly when the hundredths are kept. -/
theorem GivesTempo.spec {value : Json} {text : String} (h : GivesTempo value text)
    (hfinite : value.Finite) :
    ∃ q d, value.tempo? = some q ∧ 0 < q ∧ numeral? text.toList = some d ∧
      (0 < d ∧ |d - q| ≤ 1 / 200 ↔ Tempo.Kept (Tempo.hundredths q)) ∧
      (Tempo.Kept (Tempo.hundredths q) → decimal? text.toList = some d) := by
  have hspec {q : Rat} (hvalue : value.tempo? = some q) (hpos : 0 < q)
      (hself : nearest q = .finite q) (htext : Tempo.text (.finite q) = .ok text) :
      ∃ q d, value.tempo? = some q ∧ 0 < q ∧ numeral? text.toList = some d ∧
        (0 < d ∧ |d - q| ≤ 1 / 200 ↔ Tempo.Kept (Tempo.hundredths q)) ∧
        (Tempo.Kept (Tempo.hundredths q) → decimal? text.toList = some d) := by
    obtain ⟨d, hd⟩ := Tempo.text_spec hpos hself htext
    exact ⟨q, d, hvalue, hpos, hd⟩
  cases value with
  | int n =>
    obtain ⟨hpos, htext⟩ := h
    obtain ⟨x, hx, htext⟩ := bind_eq_ok.mp htext
    have hcast : (0 : Rat) < n := by exact_mod_cast hpos
    have hone : power 2 (-1074) ≤ n := by
      have hle : (1 : Rat) ≤ n := by exact_mod_cast hpos
      exact (power_le_power.mpr (by decide : (-1074 : Int) ≤ 0)).trans hle
    have hnearest := Binary64.nearest_of_pos hcast
    split at hnearest
    · rw [Tempo.ofInt, hnearest] at hx
      cases hx
    · rw [Tempo.ofInt, hnearest] at hx
      cases hx
      have hself := Binary64.nearest_eq_self hcast hnearest
      exact hspec (by rw [Json.tempo?, hnearest]) (Binary64.nearestPositive_pos hone) hself htext
  | real x =>
    obtain ⟨hsign, htext⟩ := h
    cases hfinite with
    | real hself =>
      cases x with
      | finite q =>
        have hpos : 0 < q := not_le.mp (of_decide_eq_false hsign)
        exact hspec rfl hpos hself htext
      | infinite | nan => exact absurd hself id
  | null | bool | str | arr | obj => exact absurd h id

/-- The tempo that an item gives is added with its text. -/
theorem GivesCommands.rel_tempoAt? {item : Json} {added : List Addition}
    (h : GivesCommands item added) (tick : Int) :
    Option.Rel (fun value a => ∃ text, GivesTempo value text ∧ a = .command tick tempoCommand text)
      (item.tempoAt? tick)
      (added.reverse.find? (fun a => a.slot = .command tick tempoCommand)) := by
  obtain ⟨members, tick', tempos, keys, rfl, htick, htempos, hkeys, rfl⟩ := h
  have hnokey : keys.reverse.find? (fun a => a.slot = .command tick tempoCommand) = none := by
    rw [List.find?_eq_none]
    intro a ha
    rw [List.mem_reverse] at ha
    cases hmember : Json.member? members keyCommand with
    | none =>
      rw [hmember] at hkeys
      cases hkeys
      cases ha
    | some value =>
      rw [hmember] at hkeys
      obtain ⟨text, -, rfl⟩ := hkeys
      rw [List.mem_singleton.mp ha]
      simp [Addition.slot, keyCommand, tempoCommand]
  rw [List.reverse_append, List.find?_append, hnokey, Option.none_or, Json.tempoAt?,
    intIn?_of_hasInt htick]
  cases hmember : Json.member? members tempoCommand with
  | none =>
    rw [hmember] at htempos
    cases htempos
    rw [ite_self]
    exact .none
  | some value =>
    rw [hmember] at htempos
    obtain ⟨text, hgives, rfl⟩ := htempos
    by_cases heq : tick' = tick
    · subst heq
      have hfound : [Addition.command tick' tempoCommand text].reverse.find?
          (fun a => a.slot = .command tick' tempoCommand) =
            some (.command tick' tempoCommand text) := by simp [Addition.slot]
      rw [if_pos rfl, hfound]
      exact .some ⟨text, hgives, rfl⟩
    · simp [Addition.slot, heq]

/-- The last tempo that items give at a tick is the last one that is added there with its text. -/
theorem rel_lastTempoAt? {items : List Json} {given : List (List Addition)}
    (hall : List.Forall₂ GivesCommands items given) (tick : Int) :
    Option.Rel (fun value a => ∃ text, GivesTempo value text ∧ a = .command tick tempoCommand text)
      (items.reverse.findSome? (Json.tempoAt? tick))
      (given.flatten.reverse.find? (fun a => a.slot = .command tick tempoCommand)) := by
  induction hall with
  | nil => exact .none
  | @cons item added items rest hitem _ ih =>
    rw [List.reverse_cons, List.findSome?_append, List.flatten_cons, List.reverse_append,
      List.find?_append]
    have hfirst := hitem.rel_tempoAt? tick
    generalize List.findSome? _ _ = earlier at ih ⊢
    generalize List.find? _ rest.flatten.reverse = found at ih ⊢
    cases ih with
    | some hsame => exact .some hsame
    | none => simpa using hfirst

/-- A channel gives no commands. -/
theorem GivesChannel.slot_ne {member : String × Json} {added : List Addition}
    (h : GivesChannel member added) (tick : Int) (name : String) :
    ∀ a ∈ added, a.slot ≠ .command tick name := by
  obtain ⟨channel, members, notes, struck, programs, chosen, -, -, -, -, hstruck, -, hchosen,
    rfl⟩ := h
  intro a ha
  rcases List.mem_append.mp ha with ha | ha
  · refine forall_mem_flatten_of_gives (P := fun a => a.slot ≠ .command tick name) hstruck
      (fun item added hgives a ha => ?_) a ha
    obtain ⟨_, _, _, _, _, -, -, -, -, -, rfl⟩ := hgives
    rw [List.mem_singleton.mp ha]
    exact nofun
  · refine forall_mem_flatten_of_gives (P := fun a => a.slot ≠ .command tick name) hchosen
      (fun item added hgives a ha => ?_) a ha
    obtain ⟨_, _, _, -, -, -, rfl⟩ := hgives
    rw [List.mem_singleton.mp ha]
    exact nofun

/-- Stored at a tick is the text of the last tempo that the document gives there. -/
theorem rel_tempo {document : Json} {r : Recording} (hok : ofDocument document = .ok r)
    (tick : Int) :
    Option.Rel GivesTempo (document.lastTempoAt? tick) ((r.commandsAt tick).get? tempoCommand) := by
  obtain ⟨members, added, resolution, endTick, rfl, hgives, -, -, rfl⟩ :=
    exists_gives_of_ofDocument hok
  have hadded := hgives.inRange
  have hvalue := valueAt?_addAll { resolution, endTick } hadded (.command tick tempoCommand)
  obtain ⟨channels, played, items, given, -, hplayed, hitems, hgiven, rfl⟩ := hgives
  have hnone :
      played.flatten.reverse.find? (fun a => a.slot = .command tick tempoCommand) = none := by
    rw [List.find?_eq_none]
    intro a ha
    have hne := forall_mem_flatten_of_gives hplayed
      (fun _ _ hchannel => hchannel.slot_ne tick tempoCommand) a (List.mem_reverse.mp ha)
    simpa using hne
  have hnew : valueAt? { resolution, endTick } (.command tick tempoCommand) = none := rfl
  rw [List.reverse_append, List.find?_append, hnone, Option.or_none, hnew, Option.or_none] at hvalue
  rw [Json.lastTempoAt?, itemsIn_of_hasItems hitems]
  have hlast := rel_lastTempoAt? hgiven tick
  rw [valueAt?] at hvalue
  generalize List.findSome? _ _ = last at hlast ⊢
  generalize List.find? _ _ = found at hlast hvalue
  cases hlast with
  | none =>
    rw [Option.map_none, Option.map_eq_none_iff] at hvalue
    rw [hvalue]
    exact .none
  | some hsame =>
    obtain ⟨text, hgives, rfl⟩ := hsame
    obtain ⟨text', htext, heq⟩ := Option.map_eq_some_iff.mp hvalue
    cases heq
    rw [htext]
    exact .some hgives

end Recording

/-! ### Tempos that are written -/

/-- The text of a tempo, if a global setting is one. -/
def GlobalSetting.tempo? : GlobalSetting → Option String
  | tempo text => some text
  | _ => none

/-- The tempo of a line, if the line sets one. -/
def Line.tempo? (line : Line) : Option String :=
  line.settings?.bind (List.findSome? GlobalSetting.tempo?)

/-- The tempo that a line of text sets, if it sets one. -/
def Line.tempoText? (cs : List Char) : Option String := (Line.readChars? cs).bind Line.tempo?

/-- A slice sets its tempo, if it has one. -/
theorem Slice.tempo?_settings (s : Slice) :
    s.settings?.bind (List.findSome? GlobalSetting.tempo?) = s.globals.get? tempoCommand := by
  have hfound : s.settings.findSome? GlobalSetting.tempo? = s.globals.get? tempoCommand := by
    rw [settings, Score.tempoSetting, List.findSome?_append]
    cases s.key? <;> cases s.globals.get? tempoCommand <;> rfl
  rw [settings?]
  split
  · rename_i hnil
    rw [← hfound, hnil]
    rfl
  · exact hfound

/-- The tempos of a text are those of the slices that have one. -/
theorem Plan.filterMap_tempoText?_textOf (p : Plan) {slices : List Slice} {s : Score}
    (hscore : p.score slices = .ok s) (hpaged : s.Paged) :
    (linesOf (p.textOf s)).filterMap Line.tempoText? =
      slices.filterMap (fun slice => slice.globals.get? tempoCommand) := by
  calc (linesOf (p.textOf s)).filterMap Line.tempoText?
      = s.lines.toList.filterMap Line.tempo? :=
        p.filterMap_readChars?_textOf hpaged rfl (fun _ => rfl)
    _ = s.settings.filterMap (List.findSome? GlobalSetting.tempo?) := by
        rw [Score.settings, List.filterMap_filterMap]
        rfl
    _ = slices.filterMap (fun slice => slice.globals.get? tempoCommand) := by
        rw [Plan.settings_of_score hscore, List.filterMap_filterMap]
        exact List.filterMap_congr (fun slice _ => slice.tempo?_settings)

namespace Recording

/-- **Tempos to the hundredth.** The tempos that are written are those of the slices, each in the
text that is stored at the start of the slice, and stored is the text of the last tempo of the
document at the tick. This text is a numeral. It denotes a positive number at most half a hundredth
away from the tempo exactly when the hundredths of the tempo are kept, and then it has no power of
ten. Integers up to `2 ^ 53` are tempos as they are, and others count as the nearest number of
double precision. -/
theorem tempos_exact_iff {document : Json} {r : Recording} (hok : ofDocument document = .ok r)
    (settings : Settings) :
    ∃ slices t, r.slices = .ok slices ∧ r.transcribe settings = .ok t ∧
      (linesOf t.text).filterMap Line.tempoText? =
        slices.filterMap (fun slice => (r.commandsAt slice.beginTick).get? tempoCommand) ∧
      ∀ tick,
        (document.lastTempoAt? tick = none → (r.commandsAt tick).get? tempoCommand = none) ∧
        ∀ value, document.lastTempoAt? tick = some value → value.Finite →
          ∃ text q d, (r.commandsAt tick).get? tempoCommand = some text ∧
            value.tempo? = some q ∧ (∀ n : Int, value = .int n → n ≤ 2 ^ 53 → q = n) ∧
            0 < q ∧ numeral? text.toList = some d ∧
            (0 < d ∧ |d - q| ≤ 1 / 200 ↔ Tempo.Kept (Tempo.hundredths q)) ∧
            (Tempo.Kept (Tempo.hundredths q) → decimal? text.toList = some d) := by
  have hbuilt := ofDocument_built hok
  obtain ⟨slices, s, R, hslices, -, hscore, -, hpaged⟩ := exists_paged hbuilt settings
  refine ⟨slices, _, hslices, bind_eq_ok.mpr ⟨slices, hslices, bind_eq_ok.mpr ⟨s, hscore, rfl⟩⟩,
    ?written, fun tick => ?stored⟩
  case written =>
    refine (Plan.filterMap_tempoText?_textOf _ hscore hpaged).trans ?_
    refine List.filterMap_congr (fun slice hslice => ?_)
    rw [globals_of_mem hbuilt.wellFormed hslices hslice]
  case stored =>
    have hrel := rel_tempo hok tick
    generalize document.lastTempoAt? tick = last at hrel
    generalize (r.commandsAt tick).get? tempoCommand = stored at hrel
    cases hrel with
    | none => exact ⟨fun _ => rfl, nofun⟩
    | some hgives =>
      refine ⟨nofun, fun value hvalue hfinite => ?_⟩
      cases hvalue
      obtain ⟨q, d, hq, hspec⟩ := hgives.spec hfinite
      refine ⟨_, q, d, rfl, hq, fun n hn hle => ?_, hspec⟩
      subst hn
      exact Option.some.inj (hq.symm.trans (Json.tempo?_int hgives.1 hle))

/-- A document whose only command is a tempo at its start. -/
def documentOfTempo (tempo : Json) : Json :=
  .obj [("resolution", .int 480), ("globals", .arr [.obj [("tick", .int 0), ("tempo", tempo)]])]

/-- The number of double precision nearest to 133.333333 is written as 133.33. -/
theorem tempos_exact_iff_thirds :
    ∃ r t text q d,
      ofDocument (documentOfTempo (.real (.finite (4691249600116143 / 2 ^ 45)))) = .ok r ∧
      r.transcribe {} = .ok t ∧ (r.commandsAt 0).get? tempoCommand = some text ∧
      (documentOfTempo (.real (.finite (4691249600116143 / 2 ^ 45)))).lastTempoAt? 0 =
        some (.real (.finite q)) ∧
      decimal? text.toList = some d ∧ 0 < d ∧ |d - q| ≤ 1 / 200 := by
  obtain ⟨r, hok, -⟩ := exists_eq_ok
    (show (ofDocument (documentOfTempo (.real (.finite (4691249600116143 / 2 ^ 45))))).toOption.any
      (fun _ => true) = true by decide +kernel)
  obtain ⟨slices, t, -, htranscribe, -, hstored⟩ := tempos_exact_iff hok {}
  obtain ⟨text, q, d, htext, hvalue, -, -, -, hiff, hread⟩ := (hstored 0).2 _ rfl
    (.real (show nearest _ = _ by decide +kernel))
  cases hvalue
  have hkept : Tempo.Kept (Tempo.hundredths (4691249600116143 / 2 ^ 45)) := by decide +kernel
  obtain ⟨hpos, hnear⟩ := hiff.mpr hkept
  exact ⟨r, t, text, _, d, hok, htranscribe, htext, rfl, hread hkept, hpos, hnear⟩

/-- The number of double precision nearest to 12345.67. -/
def fastTempo : Rat := 6787103858842665 / 2 ^ 39

/-- The number of double precision nearest to 0.001. -/
def slowTempo : Rat := 1152921504606847 / 2 ^ 60

/-- A tempo of 12345.67 is written as 12345.7, which is three hundredths away, and one of 0.001 as
0, which is not positive. -/
theorem tempos_off :
    (nearest fastTempo = .finite fastTempo ∧
      (ofDocument (documentOfTempo (.real (.finite fastTempo))) >>= fun r => r.transcribe {}).map
        (fun t => (linesOf t.text).filterMap Line.tempoText?) = .ok ["12345.7"] ∧
      numeral? "12345.7".toList = some (123457 / 10) ∧ 1 / 200 < |123457 / 10 - fastTempo|) ∧
    (nearest slowTempo = .finite slowTempo ∧ 0 < slowTempo ∧
      (ofDocument (documentOfTempo (.real (.finite slowTempo))) >>= fun r => r.transcribe {}).map
        (fun t => (linesOf t.text).filterMap Line.tempoText?) = .ok ["0"] ∧
      numeral? "0".toList = some 0) := by
  decide +kernel

end Recording

end Transcription
