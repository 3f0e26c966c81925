import Transcription.Key.Signature
import Transcription.Proofs.Text

/-!
# Texts that are keys

A key is written as two integers with a slash between them. Here is what an integer is, without
saying how one is read: blanks, a sign if there is one, digits of any script with single underscores
between them, and blanks. A text is read as an integer exactly if it is one, and as a key exactly if
it is the two integers of one of the thirty key signatures.
-/

namespace Transcription

namespace Text

/-- Digits with single underscores between them, and the number that they are. -/
inductive Numeral : List Char → Nat → Prop where
  /-- One digit. -/
  | digit {c : Char} {value : Nat} : digitValue? c = some value → Numeral [c] value
  /-- One more digit. -/
  | snoc {cs : List Char} {n : Nat} {c : Char} {value : Nat} :
    Numeral cs n → digitValue? c = some value → Numeral (cs ++ [c]) (10 * n + value)
  /-- An underscore and one more digit. -/
  | separated {cs : List Char} {n : Nat} {c : Char} {value : Nat} :
    Numeral cs n → digitValue? c = some value → Numeral (cs ++ ['_', c]) (10 * n + value)

/-- A sign and what it makes of a number. -/
def IsSign (sign : List Char) (m : Nat) (n : Int) : Prop :=
  (sign = [] ∧ n = m) ∨ (sign = ['+'] ∧ n = m) ∨ (sign = ['-'] ∧ n = -(m : Int))

/-- Characters that are an integer. -/
def IsInteger (cs : List Char) (n : Int) : Prop :=
  ∃ (before sign digits after : List Char) (m : Nat), cs = before ++ (sign ++ (digits ++ after)) ∧
    before.all isBlank ∧ after.all isBlank ∧ IsSign sign m n ∧ Numeral digits m ∧
    digits.countP (· ≠ '_') ≤ maxDigits

/-! ### Characters -/

/-- A digit lies in the ten places from a zero on. -/
theorem exists_zero {c : Char} {value : Nat} (h : digitValue? c = some value) :
    ∃ z ∈ zeros, ∃ i < 10, c.toNat = z + i := by
  obtain ⟨z, hfound, _⟩ := Option.map_eq_some_iff.mp h
  have hrange : z ≤ c.toNat ∧ c.toNat < z + 10 := by simpa using List.find?_some hfound
  exact ⟨z, List.mem_of_find?_eq_some hfound, c.toNat - z, by omega, by omega⟩

/-- A digit is no blank. -/
theorem isBlank_of_digitValue? {c : Char} {value : Nat} (h : digitValue? c = some value) :
    isBlank c = false := by
  have hall : ∀ z ∈ zeros, ∀ i < 10, ¬ ((9 ≤ z + i ∧ z + i ≤ 13) ∨ z + i = 0x20 ∨ z + i = 0x85 ∨
      z + i = 0xa0 ∨ z + i = 0x1680 ∨ (0x2000 ≤ z + i ∧ z + i ≤ 0x200a) ∨ z + i = 0x2028 ∨
      z + i = 0x2029 ∨ z + i = 0x202f ∨ z + i = 0x205f ∨ z + i = 0x3000) := by
    decide +kernel
  obtain ⟨z, hz, i, hi, hc⟩ := exists_zero h
  have hplace := hall z hz i hi
  rw [← hc] at hplace
  simpa [isBlank] using hplace

/-- A digit is not one of the other characters that may stand in an integer. -/
theorem ne_of_digitValue? {c d : Char} {value : Nat} (h : digitValue? c = some value)
    (hd : digitValue? d = none) : c ≠ d := by
  rintro rfl
  rw [h] at hd
  cases hd

/-- A blank is neither a digit nor an underscore. -/
theorem isDigitOrSeparator_of_isBlank {c : Char} (h : isBlank c = true) :
    isDigitOrSeparator c = false := by
  have hdigit : digitValue? c = none := by
    cases hvalue : digitValue? c with
    | none => rfl
    | some value =>
      rw [isBlank_of_digitValue? hvalue] at h
      cases h
  have hseparator : c ≠ '_' := by
    rintro rfl
    exact absurd h (by decide)
  simp [isDigitOrSeparator, hdigit, hseparator]

/-! ### Digits -/

/-- Reading goes on with the digits that follow. -/
theorem Numeral.append_readMoreDigits {before : List Char} {acc : Nat} (h : Numeral before acc)
    {cs : List Char} {n : Nat} (hread : readMoreDigits acc cs = some n) :
    Numeral (before ++ cs) n := by
  induction acc, cs using readMoreDigits.induct generalizing before with
  | case1 acc =>
    cases hread
    rwa [List.append_nil]
  | case2 acc c rest ih =>
    rw [readMoreDigits] at hread
    obtain ⟨value, hvalue, hrest⟩ := Option.bind_eq_some_iff.mp hread
    have hnext := ih value (h.separated hvalue) hrest
    rwa [List.append_assoc] at hnext
  | case3 acc c rest hno ih =>
    rw [readMoreDigits] at hread
    · obtain ⟨value, hvalue, hrest⟩ := Option.bind_eq_some_iff.mp hread
      have hnext := ih value (h.snoc hvalue) hrest
      rwa [List.append_assoc] at hnext
    · exact hno

/-- A character that is no underscore is read as a digit. -/
theorem readMoreDigits_cons {c : Char} (hc : c ≠ '_') (acc : Nat) (rest : List Char) :
    readMoreDigits acc (c :: rest) =
      (digitValue? c).bind (fun value => readMoreDigits (10 * acc + value) rest) := by
  rw [readMoreDigits]
  · rfl
  · exact fun _ _ heq _ => hc heq

/-- Further digits are read after the others. -/
theorem readMoreDigits_append {acc n : Nat} {cs more : List Char}
    (h : readMoreDigits acc cs = some n) :
    readMoreDigits acc (cs ++ more) = readMoreDigits n more := by
  induction acc, cs using readMoreDigits.induct with
  | case1 acc =>
    cases h
    rfl
  | case2 acc c rest ih =>
    rw [readMoreDigits] at h
    obtain ⟨value, hvalue, hrest⟩ := Option.bind_eq_some_iff.mp h
    rw [List.cons_append, List.cons_append, readMoreDigits, hvalue]
    exact ih value hrest
  | case3 acc c rest hno ih =>
    rw [readMoreDigits] at h
    · obtain ⟨value, hvalue, hrest⟩ := Option.bind_eq_some_iff.mp h
      have hc : c ≠ '_' := ne_of_digitValue? hvalue (by decide)
      rw [List.cons_append, readMoreDigits_cons hc, hvalue]
      exact ih value hrest
    · exact hno

/-- A digit after others is read. -/
theorem readMoreDigits_digit {c : Char} {value : Nat} (hc : digitValue? c = some value) (n : Nat) :
    readMoreDigits n [c] = some (10 * n + value) ∧
      readMoreDigits n ['_', c] = some (10 * n + value) := by
  have hplain : c ≠ '_' := ne_of_digitValue? hc (by decide)
  constructor
  · rw [readMoreDigits_cons hplain, hc]
    rfl
  · rw [readMoreDigits, hc]
    rfl

/-- Characters are read as digits exactly if they are a numeral. -/
theorem readDigits?_eq_some {cs : List Char} {n : Nat} :
    readDigits? cs = some n ↔ Numeral cs n := by
  constructor
  · intro h
    cases cs with
    | nil => cases h
    | cons c rest =>
      obtain ⟨value, hvalue, hrest⟩ := Option.bind_eq_some_iff.mp h
      exact (Numeral.digit hvalue).append_readMoreDigits hrest
  · intro h
    -- a numeral is read up to its last digit by what has been read before
    have hmore {cs : List Char} {n : Nat} (hread : readDigits? cs = some n) (more : List Char) :
        readDigits? (cs ++ more) = readMoreDigits n more := by
      cases cs with
      | nil => cases hread
      | cons c rest =>
        obtain ⟨value, hvalue, hrest⟩ := Option.bind_eq_some_iff.mp hread
        rw [List.cons_append, readDigits?, hvalue]
        exact readMoreDigits_append hrest
    induction h with
    | digit hc =>
      rw [readDigits?, hc]
      rfl
    | snoc _ hc ih => rw [hmore ih, (readMoreDigits_digit hc _).1]
    | separated _ hc ih => rw [hmore ih, (readMoreDigits_digit hc _).2]

/-- The characters of a numeral may stand in the digits of an integer. -/
theorem Numeral.all_isDigitOrSeparator {cs : List Char} {n : Nat} (h : Numeral cs n) :
    ∀ c ∈ cs, isDigitOrSeparator c = true := by
  have hdigit {c : Char} {value : Nat} (hc : digitValue? c = some value) :
      isDigitOrSeparator c = true := by simp [isDigitOrSeparator, hc]
  induction h with
  | digit hc => simpa using hdigit hc
  | snoc _ hc ih =>
    intro d hd
    rcases List.mem_append.mp hd with hd | hd
    · exact ih d hd
    · exact List.mem_singleton.mp hd ▸ hdigit hc
  | separated _ hc ih =>
    intro d hd
    rcases List.mem_append.mp hd with hd | hd
    · exact ih d hd
    · rcases List.mem_cons.mp hd with rfl | hd
      · rfl
      · exact List.mem_singleton.mp hd ▸ hdigit hc

/-- A numeral begins with a digit. -/
theorem Numeral.exists_head {cs : List Char} {n : Nat} (h : Numeral cs n) :
    ∃ c rest value, cs = c :: rest ∧ digitValue? c = some value := by
  induction h with
  | digit hc => exact ⟨_, [], _, rfl, hc⟩
  | snoc _ _ ih =>
    obtain ⟨c, rest, value, rfl, hc⟩ := ih
    exact ⟨c, _, value, rfl, hc⟩
  | separated _ _ ih =>
    obtain ⟨c, rest, value, rfl, hc⟩ := ih
    exact ⟨c, _, value, rfl, hc⟩

/-! ### Integers -/

/-- Characters are read as an unsigned integer exactly if they are a numeral that is not too long,
with blanks after it. -/
theorem readUnsigned_eq_ok {cs : List Char} {n : Nat} :
    readUnsigned cs = .ok n ↔ ∃ digits after, cs = digits ++ after ∧ after.all isBlank = true ∧
      Numeral digits n ∧ digits.countP (· ≠ '_') ≤ maxDigits := by
  constructor
  · intro h
    refine ⟨cs.takeWhile isDigitOrSeparator, cs.dropWhile isDigitOrSeparator,
      List.takeWhile_append_dropWhile.symm, ?_⟩
    unfold readUnsigned at h
    cases hdigits : readDigits? (cs.takeWhile isDigitOrSeparator) with
    | none => simp [hdigits] at h
    | some m =>
      simp only [hdigits] at h
      split at h
      · cases h
      · rename_i hshort
        split at h
        · rename_i hblank
          cases h
          exact ⟨hblank, readDigits?_eq_some.mp hdigits, by omega⟩
        · cases h
  · rintro ⟨digits, after, rfl, hblank, hnumeral, hshort⟩
    have hhead : ∀ c ∈ after.head?, isDigitOrSeparator c = false := by
      intro c hc
      exact isDigitOrSeparator_of_isBlank
        (List.all_eq_true.mp hblank c (List.mem_of_mem_head? hc))
    obtain ⟨htake, hdrop⟩ :=
      takeWhile_dropWhile_append hnumeral.all_isDigitOrSeparator hhead
    have hnot : ¬ maxDigits < digits.countP (· ≠ '_') := by omega
    simp only [readUnsigned, htake, hdrop, readDigits?_eq_some.mpr hnumeral, if_neg hnot, hblank,
      if_true]

/-- Characters are read as a signed integer exactly if they are a sign, if there is one, and an
unsigned integer. -/
theorem readSigned_eq_ok {cs : List Char} {n : Int} :
    readSigned cs = .ok n ↔ ∃ sign rest m, cs = sign ++ rest ∧ IsSign sign m n ∧
      readUnsigned rest = .ok m := by
  have hmap (f : Int → Int) (rest : List Char) :
      Except.map f (do return ((← readUnsigned rest : Nat) : Int)) = .ok n ↔
        ∃ m : Nat, readUnsigned rest = .ok m ∧ n = f m := by
    cases readUnsigned rest with
    | ok m => simp [Except.map, bind, Except.bind, pure, Except.pure, eq_comm]
    | error e => simp [Except.map, bind, Except.bind]
  constructor
  · intro h
    unfold readSigned at h
    split at h
    · obtain ⟨m, hread, hn⟩ := (hmap _ _).mp h
      exact ⟨['-'], _, m, rfl, Or.inr (Or.inr ⟨rfl, hn⟩), hread⟩
    · obtain ⟨m, hread, hn⟩ := (hmap _ _).mp h
      exact ⟨['+'], _, m, rfl, Or.inr (Or.inl ⟨rfl, hn⟩), hread⟩
    · obtain ⟨m, hread, hn⟩ := (hmap _ _).mp h
      exact ⟨[], _, m, rfl, Or.inl ⟨rfl, hn⟩, hread⟩
  · rintro ⟨sign, rest, m, rfl, hsign, hread⟩
    rcases hsign with ⟨rfl, hn⟩ | ⟨rfl, hn⟩ | ⟨rfl, hn⟩
    · -- an unsigned integer begins with a digit, so it is not read as a sign
      obtain ⟨digits, after, rfl, _, hnumeral, _⟩ := readUnsigned_eq_ok.mp hread
      obtain ⟨c, more, value, rfl, hc⟩ := hnumeral.exists_head
      have hminus : c ≠ '-' := ne_of_digitValue? hc (by decide)
      have hplus : c ≠ '+' := ne_of_digitValue? hc (by decide)
      have hunsigned : readSigned ([] ++ ((c :: more) ++ after)) = Except.map (fun n => n)
          (do return ((← readUnsigned ((c :: more) ++ after) : Nat) : Int)) := by
        rw [List.nil_append, List.cons_append, readSigned]
        · exact fun rest heq => hminus (List.cons.inj heq).1
        · exact fun rest heq => hplus (List.cons.inj heq).1
      rw [hunsigned]
      exact (hmap _ _).mpr ⟨m, hread, hn⟩
    · exact (hmap _ _).mpr ⟨m, hread, hn⟩
    · exact (hmap _ _).mpr ⟨m, hread, hn⟩

/-- A sign and digits do not begin with a blank. -/
theorem IsSign.isBlank_head {sign digits : List Char} {m : Nat} {n : Int} (h : IsSign sign m n)
    (hdigits : Numeral digits m) (after : List Char) :
    ∀ c ∈ (sign ++ (digits ++ after)).head?, isBlank c = false := by
  obtain ⟨d, rest, value, rfl, hd⟩ := hdigits.exists_head
  intro c hc
  rcases h with ⟨rfl, _⟩ | ⟨rfl, _⟩ | ⟨rfl, _⟩
  · cases hc
    exact isBlank_of_digitValue? hd
  · cases hc
    rfl
  · cases hc
    rfl

/-- Characters are read as an integer exactly if they are one. -/
theorem readIntOf_eq_ok {cs : List Char} {n : Int} : readIntOf cs = .ok n ↔ IsInteger cs n := by
  rw [readIntOf, readSigned_eq_ok]
  constructor
  · rintro ⟨sign, rest, m, hrest, hsign, hread⟩
    obtain ⟨digits, after, rfl, hafter, hnumeral, hshort⟩ := readUnsigned_eq_ok.mp hread
    refine ⟨cs.takeWhile isBlank, sign, digits, after, m, ?_, List.all_takeWhile, hafter, hsign,
      hnumeral, hshort⟩
    rw [← hrest, List.takeWhile_append_dropWhile]
  · rintro ⟨before, sign, digits, after, m, rfl, hbefore, hafter, hsign, hnumeral, hshort⟩
    obtain ⟨_, hdrop⟩ := takeWhile_dropWhile_append (List.all_eq_true.mp hbefore)
      (hsign.isBlank_head hnumeral after)
    rw [hdrop]
    exact ⟨sign, _, m, rfl, hsign,
      readUnsigned_eq_ok.mpr ⟨digits, after, rfl, hafter, hnumeral, hshort⟩⟩

end Text

namespace KeySignature

/-- A text that is a key: two integers with a slash between them, its place in the circle of fifths
and the number of its mode. -/
def IsText (text : String) (k : KeySignature) : Prop :=
  ∃ fifths mode, text.toList = fifths ++ '/' :: mode ∧ '/' ∉ fifths ∧
    Text.IsInteger fifths k.fifths ∧ Text.IsInteger mode k.mode.number

/-- Two numbers are a key exactly if they are its place in the circle of fifths and the number of
its mode. -/
theorem of?_eq_some {fifths mode : Int} {k : KeySignature} :
    of? fifths mode = some k ↔ fifths = k.fifths ∧ mode = k.mode.number := by
  constructor
  · intro h
    unfold of? at h
    split at h
    · obtain ⟨m, hm, rfl⟩ := Option.map_eq_some_iff.mp h
      refine ⟨rfl, ?_⟩
      unfold Mode.ofNumber? at hm
      split at hm
      · cases hm
        assumption
      · split at hm
        · cases hm
          assumption
        · cases hm
    · cases h
  · rintro ⟨rfl, rfl⟩
    exact k.of?_fifths_mode

/-- Characters with a slash among them are divided at the first one. -/
theorem exists_slash {cs : List Char} (h : '/' ∈ cs) :
    cs = cs.takeWhile (· ≠ '/') ++ '/' :: (cs.dropWhile (· ≠ '/')).drop 1 := by
  induction cs with
  | nil => cases h
  | cons c rest ih =>
    by_cases hc : c = '/'
    · simp [hc]
    · have hrest := ih ((List.mem_cons.mp h).resolve_left (Ne.symm hc))
      rw [List.takeWhile_cons_of_pos (by simpa using hc),
        List.dropWhile_cons_of_pos (by simpa using hc), List.cons_append]
      exact congrArg (c :: ·) hrest

/-- A text is read as a key exactly if it is one. -/
theorem read?_eq_some {text : String} {k : KeySignature} :
    read? text = some k ↔ IsText text k := by
  have hread : read? text = some k ↔ '/' ∈ text.toList ∧
      Text.readIntOf (text.toList.takeWhile (· ≠ '/')) = .ok k.fifths ∧
      Text.readIntOf ((text.toList.dropWhile (· ≠ '/')).drop 1) = .ok k.mode.number := by
    have hsome {fault : Type} {x : Except fault Int} {n : Int} :
        x.toOption = some n ↔ x = .ok n := by
      cases x <;> simp [Except.toOption]
    by_cases hslash : '/' ∈ text.toList
    · simp only [read?, hslash, not_true, if_false, Option.bind_eq_bind, Option.bind_eq_some_iff,
        hsome, of?_eq_some, true_and]
      constructor
      · rintro ⟨fifths, hfifths, mode, hmode, rfl, rfl⟩
        exact ⟨hfifths, hmode⟩
      · rintro ⟨hfifths, hmode⟩
        exact ⟨_, hfifths, _, hmode, rfl, rfl⟩
    · simp [read?, hslash]
  rw [hread, Text.readIntOf_eq_ok, Text.readIntOf_eq_ok]
  constructor
  · rintro ⟨hslash, hfifths, hmode⟩
    refine ⟨_, _, exists_slash hslash, fun hmem => ?_, hfifths, hmode⟩
    simpa using List.all_eq_true.mp List.all_takeWhile '/' hmem
  · rintro ⟨fifths, mode, heq, hnot, hfifths, hmode⟩
    have hbefore : ∀ c ∈ fifths, decide (c ≠ '/') = true := by
      intro c hc
      exact decide_eq_true (fun h => hnot (h ▸ hc))
    have hafter : ∀ c ∈ ('/' :: mode).head?, decide (c ≠ '/') = false := by simp
    obtain ⟨htake, hdrop⟩ := takeWhile_dropWhile_append hbefore hafter
    rw [heq, htake, hdrop]
    exact ⟨by simp, hfifths, hmode⟩

end KeySignature

end Transcription
