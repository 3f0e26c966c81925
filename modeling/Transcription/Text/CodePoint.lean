/-!
# Code points

Escapes of a JSON document can name any code point up to U+10FFFF, also a surrogate without its
partner, which is no character. A text holds such a code point as two characters, a mark and a
character that stands for it; the mark itself is held twice. The mark is the lowest character above
the surrogates. The main statements say that no code point is lost and that texts are ordered as
their code points are.
-/

namespace Transcription.Text

/-- Whether a code point is a surrogate. -/
def isSurrogate (n : Nat) : Bool := 0xd800 ≤ n ∧ n ≤ 0xdfff

/-- The code point of the character that announces a surrogate. -/
def markPoint : Nat := 0xe000

/-- The character that announces a surrogate. -/
def mark : Char := Char.ofNat markPoint

/-- How far the character that stands for a surrogate lies below it. -/
def surrogateShift : Nat := 0x8a00

/-- The characters that hold a code point. -/
def held (n : Nat) : List Char :=
  if isSurrogate n then [mark, Char.ofNat (n - surrogateShift)]
  else if n = markPoint then [mark, mark]
  else [Char.ofNat n]

/-- The code point that a character after the mark stands for. -/
def announced (c : Char) : Nat := if c = mark then markPoint else c.toNat + surrogateShift

/-- The text of code points. -/
def ofCodePoints (ns : List Nat) : String := String.ofList (ns.flatMap held)

/-- The code points that characters hold. -/
def codePointsOf : List Char → List Nat
  | [] => []
  | [c] => [c.toNat]
  | c :: d :: rest =>
    if c = mark then announced d :: codePointsOf rest else c.toNat :: codePointsOf (d :: rest)

/-- The code points of a text. -/
def codePoints (text : String) : List Nat := codePointsOf text.toList

/-- The text that stands in a plain string. -/
def ofPlain (s : String) : String := ofCodePoints (s.toList.map Char.toNat)

/-- The character of a code point that is no surrogate. -/
theorem toNat_ofNat {n : Nat} (hn : n < 0x110000) (hs : isSurrogate n = false) :
    (Char.ofNat n).toNat = n := by
  have hv : n.isValidChar := by
    simp only [isSurrogate, decide_eq_false_iff_not] at hs
    simp only [Nat.isValidChar]
    omega
  rw [Char.ofNat, dif_pos hv]
  rfl

/-- The mark stands above the surrogates. -/
theorem toNat_mark : mark.toNat = markPoint := toNat_ofNat (by decide) (by decide)

/-- The character that stands for a surrogate. -/
theorem toNat_standIn {n : Nat} (hs : isSurrogate n) :
    (Char.ofNat (n - surrogateShift)).toNat = n - surrogateShift := by
  have hrange : 0xd800 ≤ n ∧ n ≤ 0xdfff := by simpa [isSurrogate] using hs
  exact toNat_ofNat (by omega) (decide_eq_false (by simp only [surrogateShift]; omega))

/-- Code points are found again, whatever follows them. -/
theorem codePointsOf_held {n : Nat} (hn : n < 0x110000) (rest : List Char) :
    codePointsOf (held n ++ rest) = n :: codePointsOf rest := by
  by_cases hs : isSurrogate n
  · have hrange : 0xd800 ≤ n ∧ n ≤ 0xdfff := by simpa [isSurrogate] using hs
    have hback : n - surrogateShift + surrogateShift = n := by
      simp only [surrogateShift]
      omega
    have hne : Char.ofNat (n - surrogateShift) ≠ mark := by
      intro h
      have := congrArg Char.toNat h
      rw [toNat_standIn hs, toNat_mark] at this
      simp only [surrogateShift, markPoint] at this
      omega
    simp [held, hs, codePointsOf, announced, hne, toNat_standIn hs, hback]
  · have hs : isSurrogate n = false := by simpa using hs
    by_cases hm : n = markPoint
    · simp [held, hm, codePointsOf, announced, show isSurrogate markPoint = false from by decide]
    · have hchar := toNat_ofNat hn hs
      have hne : Char.ofNat n ≠ mark := by
        intro h
        have := congrArg Char.toNat h
        rw [hchar, toNat_mark] at this
        exact hm this
      cases rest with
      | nil => simp [held, hs, hm, codePointsOf, hchar]
      | cons d rest => simp [held, hs, hm, codePointsOf, hchar, hne]

/-- The code points of a text are those that it was made of. -/
theorem codePoints_ofCodePoints {ns : List Nat} (h : ∀ n ∈ ns, n < 0x110000) :
    codePoints (ofCodePoints ns) = ns := by
  induction ns with
  | nil => rfl
  | cons n ns ih =>
    have htail := ih (fun m hm => h m (List.mem_cons_of_mem _ hm))
    simp only [codePoints, ofCodePoints, String.toList_ofList, List.flatMap_cons] at htail ⊢
    rw [codePointsOf_held (h n List.mem_cons_self), htail]

/-- The code point of the first character that holds a code point. -/
def leadPoint (n : Nat) : Nat := if isSurrogate n then markPoint else n

/-- The first character of a lower code point is lower, or the mark announces both code points. -/
theorem leadPoint_lt_or {n m : Nat} (h : n < m) :
    leadPoint n < leadPoint m ∨ isSurrogate n ∧ (isSurrogate m ∨ m = markPoint) := by
  simp only [leadPoint, isSurrogate, markPoint]
  grind

/-- A code point is held by one character, or by two of which the first is the mark. -/
theorem held_eq_cons (n : Nat) : ∃ cs, held n = Char.ofNat (leadPoint n) :: cs := by
  simp only [held, leadPoint]
  split
  · exact ⟨_, rfl⟩
  · split
    · subst_vars
      exact ⟨_, rfl⟩
    · exact ⟨_, rfl⟩

/-- The first character that holds a code point. -/
theorem toNat_leadPoint {n : Nat} (hn : n < 0x110000) :
    (Char.ofNat (leadPoint n)).toNat = leadPoint n := by
  by_cases hs : isSurrogate n
  · rw [leadPoint, if_pos hs]
    exact toNat_mark
  · rw [leadPoint, if_neg hs]
    exact toNat_ofNat hn (by simpa using hs)

/-- Characters are ordered as their code points are. -/
theorem lt_of_toNat {a b : Char} {n m : Nat} (ha : a.toNat = n) (hb : b.toNat = m) (h : n < m) :
    a < b := by
  subst ha hb
  exact Char.lt_def.2 h

/-- The characters of a lower code point come first, whatever follows them. -/
theorem held_append_lt {n m : Nat} (hm : m < 0x110000) (h : n < m) (a b : List Char) :
    held n ++ a < held m ++ b := by
  rcases leadPoint_lt_or h with hlead | ⟨hsn, hsm⟩
  · obtain ⟨cs, hcs⟩ := held_eq_cons n
    obtain ⟨ds, hds⟩ := held_eq_cons m
    rw [hcs, hds, List.cons_append, List.cons_append, List.cons_lt_cons_iff]
    exact Or.inl (lt_of_toNat (toNat_leadPoint (by omega)) (toNat_leadPoint hm) hlead)
  · have hn : 0xd800 ≤ n ∧ n ≤ 0xdfff := by simpa [isSurrogate] using hsn
    rcases hsm with hsm | rfl
    · have hlt : Char.ofNat (n - surrogateShift) < Char.ofNat (m - surrogateShift) :=
        lt_of_toNat (toNat_standIn hsn) (toNat_standIn hsm) (by
          simp only [surrogateShift]
          omega)
      simp [held, hsn, hsm, List.cons_lt_cons_iff, hlt]
    · have hlt : Char.ofNat (n - surrogateShift) < mark :=
        lt_of_toNat (toNat_standIn hsn) toNat_mark (by
          simp only [surrogateShift, markPoint]
          omega)
      simp [held, hsn, show isSurrogate markPoint = false from by decide,
        List.cons_lt_cons_iff, hlt]

/-- Texts are ordered as their code points are. -/
theorem ofCodePoints_lt {ns ms : List Nat} (h : ∀ m ∈ ms, m < 0x110000) (hlt : ns < ms) :
    ofCodePoints ns < ofCodePoints ms := by
  rw [String.lt_iff, ofCodePoints, ofCodePoints, String.toList_ofList, String.toList_ofList]
  induction ms generalizing ns with
  | nil => exact absurd hlt (List.not_lt_nil ns)
  | cons m ms ih =>
    cases ns with
    | nil =>
      obtain ⟨cs, hcs⟩ := held_eq_cons m
      rw [List.flatMap_nil, List.flatMap_cons, hcs]
      exact List.nil_lt_cons _ _
    | cons n ns =>
      rw [List.flatMap_cons, List.flatMap_cons]
      rcases List.cons_lt_cons_iff.1 hlt with hhead | ⟨rfl, htail⟩
      · exact held_append_lt (h m List.mem_cons_self) hhead _ _
      · exact List.append_left_lt (ih (fun k hk => h k (List.mem_cons_of_mem _ hk)) htail)

end Transcription.Text
