import Mathlib.Data.List.Chain
import Transcription.Proofs.Table
import Transcription.Recording.Basic

/-!
# The spans of programs

The choices of program on a channel divide the ticks from the first choice on: every tick lies in
the span of one choice only, and the program of this choice is the one that is active. Before the
first choice the first program of all is active.
-/

namespace Transcription

/-! ### Spans between ticks -/

/-- Whether a tick lies in a span, from its begin up to but not including its end. -/
def inSpan (span : Int × Option Int) (tick : Int) : Bool :=
  span.1 ≤ tick ∧ span.2.all (fun next => tick < next)

/-- The spans that begin at some ticks, each of them with the next tick as its end. -/
def spansFrom : List Int → List (Int × Option Int)
  | [] => []
  | first :: rest => (first, rest.head?) :: spansFrom rest

section Spans

variable {ticks : List Int} {span : Int × Option Int}

/-- Ticks paired with the next ones are spans. -/
theorem zip_next (ticks : List Int) :
    ticks.zip ((ticks.drop 1).map some ++ [none]) = spansFrom ticks := by
  induction ticks with
  | nil => rfl
  | cons first rest ih =>
    cases rest with
    | nil => rfl
    | cons second rest => exact congrArg (_ :: ·) ih

/-- Spans begin at the ticks from which they are made. -/
theorem map_fst_spansFrom (ticks : List Int) : (spansFrom ticks).map Prod.fst = ticks := by
  induction ticks with
  | nil => rfl
  | cons first rest ih => rw [spansFrom, List.map_cons, ih]

/-- Each span ends where the next one begins. -/
theorem isChain_spansFrom (ticks : List Int) :
    (spansFrom ticks).IsChain (fun a b => a.2 = some b.1) := by
  induction ticks with
  | nil => exact .nil
  | cons first rest ih =>
    cases rest with
    | nil => exact .singleton _
    | cons second rest => exact .cons_cons rfl ih

/-- The last span has no end. -/
theorem snd_getLast?_spansFrom (hlast : (spansFrom ticks).getLast? = some span) :
    span.2 = none := by
  induction ticks with
  | nil => cases hlast
  | cons first rest ih =>
    cases rest with
    | nil =>
      cases hlast
      rfl
    | cons second rest => exact ih hlast

/-- The first of ascending ticks is after a tick if all of them are. -/
theorem all_head?_iff (h : ticks.Pairwise (· < ·)) (tick : Int) :
    ticks.head?.all (fun next => tick < next) = true ↔ ∀ later ∈ ticks, tick < later := by
  cases ticks with
  | nil => simp
  | cons first rest =>
    have hafter := (List.pairwise_cons.mp h).1
    simp only [List.head?_cons, Option.all_some, decide_eq_true_eq, List.forall_mem_cons]
    refine ⟨fun hlt => ⟨hlt, fun later hlater => ?_⟩, fun hall => hall.1⟩
    have := hafter later hlater
    omega

/-- A tick lies in a span if it is not before its begin, but before all later begins. -/
theorem inSpan_iff (h : ticks.Pairwise (· < ·)) (hspan : span ∈ spansFrom ticks) (tick : Int) :
    inSpan span tick = true ↔
      span.1 ≤ tick ∧ ∀ later ∈ ticks, span.1 < later → tick < later := by
  induction ticks with
  | nil => simp [spansFrom] at hspan
  | cons first rest ih =>
    obtain ⟨hfirst, hrest⟩ := List.pairwise_cons.mp h
    rw [List.forall_mem_cons]
    rcases List.mem_cons.mp hspan with rfl | hspan
    · rw [inSpan, decide_eq_true_eq, all_head?_iff hrest]
      refine and_congr_right (fun _ => ⟨fun hall => ?_, fun hall later hlater => ?_⟩)
      · exact ⟨fun hlt => absurd hlt (Int.lt_irrefl first), fun later hlater _ => hall later hlater⟩
      · exact hall.2 later hlater (hfirst later hlater)
    · have hbegin : span.1 ∈ rest := map_fst_spansFrom rest ▸ List.mem_map_of_mem hspan
      rw [ih hrest hspan]
      refine and_congr_right (fun _ => ⟨fun hall => ⟨fun hlt => ?_, hall⟩, fun hall => hall.2⟩)
      have := hfirst span.1 hbegin
      omega

/-- From the first of ascending ticks on every tick lies in one span, before it in none. -/
theorem countP_spansFrom {first : Int} {rest : List Int} (h : (first :: rest).Pairwise (· < ·))
    (tick : Int) :
    (spansFrom (first :: rest)).countP (inSpan · tick) = if first ≤ tick then 1 else 0 := by
  induction rest generalizing first with
  | nil => simp [spansFrom, inSpan]
  | cons second rest ih =>
    obtain ⟨hfirst, hrest⟩ := List.pairwise_cons.mp h
    have hlt := hfirst second List.mem_cons_self
    rw [spansFrom, List.countP_cons, ih hrest]
    simp only [inSpan, List.head?_cons, Option.all_some, decide_eq_true_eq]
    split_ifs <;> omega

end Spans

/-! ### Spans of programs -/

namespace Recording

/-- Spans of programs that divide the ticks from the first choice on. -/
structure Divided (r : Recording) (channel : Int) : Prop where
  /-- A span begins at every choice, and nowhere else. -/
  begins : (r.programSpans channel).map Prod.fst = (r.programsOn channel).keys
  /-- Each span ends where the next one begins. -/
  joined : (r.programSpans channel).IsChain (fun span next => span.2 = some next.1)
  /-- The last span has no end. -/
  endless : ∀ span, (r.programSpans channel).getLast? = some span → span.2 = none
  /-- From the first choice on, every tick lies in exactly one span, and none before it does. -/
  covered : ∀ first, (r.programsOn channel).keys.head? = some first → ∀ tick,
    (r.programSpans channel).countP (inSpan · tick) = if first ≤ tick then 1 else 0
  /-- At every tick of a span the program is active that is chosen where the span begins. -/
  active : ∀ span ∈ r.programSpans channel, ∀ tick, inSpan span tick = true →
    (r.programsOn channel).get? span.1 = some (r.programAt channel tick)
  /-- Before all choices the first program of all is active. -/
  before : ∀ tick, (∀ key ∈ (r.programsOn channel).keys, tick < key) → r.programAt channel tick = 0

variable {r : Recording} {channel : Int}

/-- The spans of programs begin where programs are chosen. -/
theorem programSpans_eq (r : Recording) (channel : Int) :
    r.programSpans channel = spansFrom (r.programsOn channel).keys :=
  zip_next _

/-- A tick lies in the span of a program if no program is chosen after it up to the tick. -/
theorem inSpan_iff_of_mem {span : Int × Option Int} (hspan : span ∈ r.programSpans channel)
    (tick : Int) : inSpan span tick = true ↔ span.1 ≤ tick ∧
      ∀ later ∈ (r.programsOn channel).keys, span.1 < later → tick < later :=
  inSpan_iff (r.programsOn channel).keys_pairwise (programSpans_eq r channel ▸ hspan) tick

/-- The spans of programs divide the ticks from the first choice on. -/
theorem divided (r : Recording) (channel : Int) : r.Divided channel := by
  have hspans := r.programSpans_eq channel
  have hkeys := (r.programsOn channel).keys_pairwise
  constructor
  case begins => rw [hspans, map_fst_spansFrom]
  case joined => exact hspans ▸ isChain_spansFrom _
  case endless => exact fun span hlast => snd_getLast?_spansFrom (hspans ▸ hlast)
  case covered =>
    intro first hfirst tick
    obtain ⟨rest, hrest⟩ := List.head?_eq_some_iff.mp hfirst
    rw [hspans, hrest]
    exact countP_spansFrom (hrest ▸ hkeys) tick
  case active =>
    intro span hspan tick hin
    obtain ⟨hle, hlater⟩ := (inSpan_iff_of_mem hspan tick).mp hin
    have hbegin : span.1 ∈ (r.programsOn channel).keys := by
      rw [← map_fst_spansFrom (r.programsOn channel).keys, ← hspans]
      exact List.mem_map_of_mem hspan
    obtain ⟨program, hget⟩ := Table.mem_keys_iff.mp hbegin
    rw [hget, programAt, Table.lastUpTo?_eq_some hget (Int.not_lt.mpr hle) hlater]
    rfl
  case before =>
    intro tick hbefore
    rw [programAt, Table.lastUpTo?_eq_none hbefore]
    rfl

end Recording

end Transcription
