import Mathlib.Data.List.Basic

/-!
# Pieces of text

A text is taken apart by what it begins and ends with, by the characters it consists of, and by a
character that divides it. Numbers are read back from the texts that they are written as.
-/

namespace Transcription

/-! ### Beginnings, ends and numbers -/

/-- What follows a beginning of a text. -/
def strip? (start : String) (cs : List Char) : Option (List Char) := cs.dropPrefix? start.toList

/-- What comes before an end of a text. -/
def stripEnd? (finish : String) (cs : List Char) : Option (List Char) :=
  (cs.reverse.dropPrefix? finish.toList.reverse).map List.reverse

/-- The natural number that a text of digits is. -/
def readNat? (cs : List Char) : Option Nat :=
  if cs.all Char.isDigit then some (Nat.ofDigitChars 10 cs 0) else none

/-- The number that a text is. -/
def readInt? : List Char → Option Int
  | '-' :: cs => (readNat? cs).map (fun n : Nat => -(n : Int))
  | cs => (readNat? cs).map (fun n : Nat => (n : Int))

@[simp] theorem strip?_append (start : String) (cs : List Char) :
    strip? start (start.toList ++ cs) = some cs :=
  List.dropPrefix?_eq_some_iff.mpr ⟨start.toList, rfl, beq_self_eq_true _⟩

@[simp] theorem stripEnd?_append (finish : String) (cs : List Char) :
    stripEnd? finish (cs ++ finish.toList) = some cs := by
  have h : (cs ++ finish.toList).reverse.dropPrefix? finish.toList.reverse = some cs.reverse :=
    List.dropPrefix?_eq_some_iff.mpr ⟨_, List.reverse_append, beq_self_eq_true _⟩
  rw [stripEnd?, h, Option.map_some, List.reverse_reverse]

/-- A number that is not negative consists of digits. -/
theorem isDigit_of_mem_toString {n : Nat} {c : Char} (h : c ∈ (toString (n : Int)).toList) :
    c.isDigit = true := by
  rw [Int.toString_eq_repr, Int.repr_eq_if, if_pos (Int.natCast_nonneg n), Int.toNat_natCast,
    Nat.toList_repr] at h
  exact Nat.isDigit_of_mem_toDigits (by decide) (by decide) h

/-- A number consists of digits, with a minus sign before them if it is negative. -/
theorem mem_toList_toString {n : Int} {c : Char} (h : c ∈ (toString n).toList) :
    c.isDigit = true ∨ c = '-' := by
  by_cases hnonneg : 0 ≤ n
  · rw [← Int.toNat_of_nonneg hnonneg] at h
    exact Or.inl (isDigit_of_mem_toString h)
  · rw [Int.toString_eq_repr, Int.repr_eq_if, if_neg hnonneg, String.toList_append,
      List.mem_append, Nat.toList_repr] at h
    rcases h with h | h
    · exact Or.inr (by simpa using h)
    · exact Or.inl (Nat.isDigit_of_mem_toDigits (by decide) (by decide) h)

private theorem readNat?_repr (n : Nat) : readNat? n.repr.toList = some n := by
  have hdigits : n.repr.toList.all Char.isDigit = true := by
    rw [Nat.toList_repr, List.all_eq_true]
    exact fun c hc => Nat.isDigit_of_mem_toDigits (by decide) (by decide) hc
  rw [readNat?, if_pos hdigits, Nat.toList_repr, Nat.ofDigitChars_ten_toDigits]

/-- A number is read back from its text. -/
theorem readInt?_toString (n : Int) : readInt? (toString n).toList = some n := by
  rw [Int.toString_eq_repr, Int.repr_eq_if]
  split
  · rename_i hnonneg
    have hcs : ∀ cs, n.toNat.repr.toList ≠ '-' :: cs := by
      intro cs hcs
      have hmem : '-' ∈ (toString (n.toNat : Int)).toList := by
        rw [Int.toString_eq_repr, Int.repr_eq_if, if_pos (Int.natCast_nonneg _),
          Int.toNat_natCast, hcs]
        exact List.mem_cons_self
      exact absurd (isDigit_of_mem_toString hmem) (by decide)
    unfold readInt?
    split
    · rename_i cs heq
      exact absurd heq (hcs cs)
    · rw [readNat?_repr, Option.map_some, Int.toNat_of_nonneg hnonneg]
  · rename_i hneg
    have htext : ("-" ++ (-n).toNat.repr).toList = '-' :: (-n).toNat.repr.toList := by
      rw [String.toList_append]
      rfl
    rw [htext, readInt?, readNat?_repr, Option.map_some]
    congr 1
    omega

/-- A text is divided after its longest beginning of some kind of characters. -/
theorem takeWhile_dropWhile_append {p : Char → Bool} {cs rest : List Char}
    (hcs : ∀ c ∈ cs, p c = true) (hrest : ∀ c ∈ rest.head?, p c = false) :
    (cs ++ rest).takeWhile p = cs ∧ (cs ++ rest).dropWhile p = rest := by
  rw [List.takeWhile_append_of_pos hcs, List.dropWhile_append_of_pos hcs]
  cases rest with
  | nil => simp
  | cons c rest =>
    have hc : p c = false := hrest c rfl
    simp [hc]

/-! ### Texts that are divided -/

/-- A text is one piece if the character that divides it does not occur in it. -/
theorem splitOn_of_notMem {x : Char} {cs : List Char} (h : x ∉ cs) : cs.splitOn x = [cs] := by
  have hsplit : ([x].intercalate [cs]).splitOn x = [cs] :=
    List.splitOn_intercalate _ (by simpa using h) (List.cons_ne_nil _ _)
  rwa [List.intercalate_singleton] at hsplit

/-- To join lists is to join the first of them, a separator and the joined others. -/
theorem intercalate_append {α : Type} {x : α} {l m : List (List α)} (hl : l ≠ []) (hm : m ≠ []) :
    [x].intercalate (l ++ m) = [x].intercalate l ++ x :: [x].intercalate m := by
  induction l with
  | nil => exact absurd rfl hl
  | cons item rest ih =>
    cases rest with
    | nil => rw [List.singleton_append, List.intercalate_cons_of_ne_nil hm]; simp
    | cons item' rest =>
      have hrest := ih (List.cons_ne_nil item' rest)
      rw [List.cons_append] at hrest
      rw [List.cons_append, List.cons_append, List.intercalate_cons_cons, hrest,
        List.intercalate_cons_cons]
      simp

/-- To join lists of which one is the last is to end every other one with a separator. -/
theorem intercalate_concat {α : Type} {x : α} (l : List (List α)) (last : List α) :
    [x].intercalate (l ++ [last]) = l.flatMap (fun item => item ++ [x]) ++ last := by
  induction l with
  | nil => simp
  | cons item rest ih =>
    rw [List.cons_append, List.intercalate_cons_of_ne_nil (by simp), ih, List.flatMap_cons,
      ← List.append_assoc]

/-- To join joined lists is to join all their items. -/
theorem intercalate_map_intercalate {x : Char} {groups : List (List (List Char))}
    (h : ∀ g ∈ groups, g ≠ []) :
    [x].intercalate (groups.map [x].intercalate) = [x].intercalate groups.flatten := by
  induction groups with
  | nil => rfl
  | cons g rest ih =>
    have hg := h g List.mem_cons_self
    have hrest := ih (fun g' hg' => h g' (List.mem_cons_of_mem _ hg'))
    cases rest with
    | nil => simp
    | cons g' rest =>
      have hne : (g' :: rest).flatten ≠ [] := by
        simp [h g' (List.mem_cons_of_mem _ List.mem_cons_self)]
      have hflatten : (g :: g' :: rest).flatten = g ++ (g' :: rest).flatten := List.flatten_cons
      rw [List.map_cons, List.intercalate_cons_of_ne_nil (by simp), hrest, hflatten,
        intercalate_append hg hne]
      simp

/-! ### Empty pieces at both ends -/

section Trimmed

variable {α : Type}

/-- Lists without the empty ones at both ends. -/
def trimmed (ls : List (List α)) : List (List α) :=
  ((ls.dropWhile List.isEmpty).reverse.dropWhile List.isEmpty).reverse

/-- Empty lists at the beginning are left out. -/
theorem dropWhile_replicate_nil (n : Nat) (ls : List (List α)) :
    (List.replicate n [] ++ ls).dropWhile List.isEmpty = ls.dropWhile List.isEmpty := by
  apply List.dropWhile_append_of_pos
  intro l hl
  rw [List.eq_of_mem_replicate hl]
  rfl

/-- Lists begin with some empty ones, and then comes what is left without them. -/
theorem exists_replicate_dropWhile (ls : List (List α)) :
    ∃ n, ls = List.replicate n [] ++ ls.dropWhile List.isEmpty := by
  have hempty : ∀ l ∈ ls.takeWhile List.isEmpty, l = [] := fun l hl =>
    List.isEmpty_iff.mp (List.all_eq_true.mp List.all_takeWhile l hl)
  refine ⟨(ls.takeWhile List.isEmpty).length, ?_⟩
  rw [← List.eq_replicate_of_mem hempty, List.takeWhile_append_dropWhile]

/-- Further empty lists at both ends change nothing. -/
theorem trimmed_replicate (m n : Nat) (ls : List (List α)) :
    trimmed (List.replicate m [] ++ ls ++ List.replicate n []) = trimmed ls := by
  have hnil : (List.replicate n ([] : List α)).dropWhile List.isEmpty = [] := by
    simp
  rw [trimmed, List.append_assoc, dropWhile_replicate_nil, List.dropWhile_append]
  split
  · rename_i hempty
    rw [hnil, trimmed, List.isEmpty_iff.mp hempty]
  · rw [List.reverse_append, List.reverse_replicate, dropWhile_replicate_nil, trimmed]

/-- Lists are the trimmed ones with empty ones at both ends. -/
theorem exists_trimmed (ls : List (List α)) :
    ∃ m n, ls = List.replicate m [] ++ trimmed ls ++ List.replicate n [] := by
  obtain ⟨m, hfirst⟩ := exists_replicate_dropWhile ls
  obtain ⟨n, hlast⟩ := exists_replicate_dropWhile (ls.dropWhile List.isEmpty).reverse
  refine ⟨m, n, ?_⟩
  have hreverse := congrArg List.reverse hlast
  rw [List.reverse_reverse, List.reverse_append, List.reverse_replicate] at hreverse
  rw [List.append_assoc, trimmed, ← hreverse]
  exact hfirst

/-- Trimmed lists are trimmed. -/
theorem trimmed_trimmed (ls : List (List α)) : trimmed (trimmed ls) = trimmed ls := by
  obtain ⟨m, n, hls⟩ := exists_trimmed ls
  conv_rhs => rw [hls, trimmed_replicate]

/-- The trimmed lists are among the lists. -/
theorem mem_of_mem_trimmed {ls : List (List α)} {l : List α} (h : l ∈ trimmed ls) : l ∈ ls := by
  obtain ⟨m, n, hls⟩ := exists_trimmed ls
  rw [hls]
  simp [h]

/-- What a selection that keeps empty lists makes of lists is determined, up to empty ones at both
ends, by the trimmed lists. -/
theorem trimmed_filterMap {f : List α → Option (List α)} (hf : f [] = some [])
    (ls : List (List α)) :
    trimmed (ls.filterMap f) = trimmed ((trimmed ls).filterMap f) := by
  have hnil (n : Nat) : (List.replicate n ([] : List α)).filterMap f = List.replicate n [] := by
    induction n with
    | zero => rfl
    | succ n ih => rw [List.replicate_succ, List.filterMap_cons_some hf, ih]
  obtain ⟨m, n, hls⟩ := exists_trimmed ls
  conv_lhs => rw [hls, List.filterMap_append, List.filterMap_append, hnil, hnil, trimmed_replicate]

/-- What steps that pass over empty lists make of lists is determined by the trimmed lists. -/
theorem foldlM_trimmed {β : Type} {step : β → List α → Option β} (hstep : ∀ b, step b [] = some b)
    (ls : List (List α)) (b : β) : ls.foldlM step b = (trimmed ls).foldlM step b := by
  have hnil (n : Nat) (b : β) : (List.replicate n ([] : List α)).foldlM step b = some b := by
    induction n with
    | zero => rfl
    | succ n ih => rw [List.replicate_succ, List.foldlM_cons, hstep, Option.bind_eq_bind,
        Option.bind_some, ih]
  obtain ⟨m, n, hls⟩ := exists_trimmed ls
  conv_lhs => rw [hls]
  simp only [List.foldlM_append, hnil, Option.bind_eq_bind, Option.bind_some]
  cases (trimmed ls).foldlM step b <;> rfl

/-- What a selection that leaves empty lists out finds in lists it finds in the trimmed lists. -/
theorem filterMap_trimmed {β : Type} {f : List α → Option β} (hf : f [] = none)
    (ls : List (List α)) : (trimmed ls).filterMap f = ls.filterMap f := by
  have hnil (n : Nat) : (List.replicate n ([] : List α)).filterMap f = [] := by
    refine List.filterMap_eq_nil_iff.mpr (fun l hl => ?_)
    rw [List.eq_of_mem_replicate hl, hf]
  obtain ⟨m, n, hls⟩ := exists_trimmed ls
  conv_rhs => rw [hls, List.filterMap_append, List.filterMap_append, hnil, hnil, List.nil_append,
    List.append_nil]

variable {x : α}

/-- To join lists backwards is to go through what is joined backwards. -/
theorem reverse_intercalate (ls : List (List α)) :
    ([x].intercalate ls).reverse = [x].intercalate (ls.reverse.map List.reverse) := by
  induction ls with
  | nil => rfl
  | cons l rest ih =>
    cases rest with
    | nil => simp
    | cons l' rest =>
      have hlast : (l :: l' :: rest).reverse = (l' :: rest).reverse ++ [l] := List.reverse_cons
      rw [List.intercalate_cons_cons, List.reverse_append, ih, hlast, List.map_append,
        intercalate_append (by simp) (by simp)]
      simp

variable [DecidableEq α]

/-- Joined lists begin with as many separators as there are empty lists at the beginning. -/
theorem dropWhile_intercalate {ls : List (List α)} (h : ∀ l ∈ ls, x ∉ l) :
    ([x].intercalate ls).dropWhile (· = x) = [x].intercalate (ls.dropWhile List.isEmpty) := by
  induction ls with
  | nil => rfl
  | cons l rest ih =>
    have hrest := ih (fun l' hl' => h l' (List.mem_cons_of_mem _ hl'))
    cases l with
    | nil =>
      rw [List.dropWhile_cons_of_pos (by rfl), ← hrest]
      cases rest with
      | nil => rfl
      | cons l' rest => simp [List.intercalate_cons_cons]
    | cons c cs =>
      have hne : c ≠ x := by
        rintro rfl
        exact h (c :: cs) List.mem_cons_self List.mem_cons_self
      rw [List.dropWhile_cons_of_neg (by simp)]
      cases rest with
      | nil => simp [hne]
      | cons l' rest => simp [List.intercalate_cons_cons, hne]

/-- Joined lists without separators at both ends are the joined trimmed lists. -/
theorem strip_intercalate {ls : List (List α)} (h : ∀ l ∈ ls, x ∉ l) :
    ((([x].intercalate ls).dropWhile (· = x)).reverse.dropWhile (· = x)).reverse =
      [x].intercalate (trimmed ls) := by
  have hreverse : ∀ l ∈ (ls.dropWhile List.isEmpty).reverse.map List.reverse, x ∉ l := by
    intro l hl hx
    obtain ⟨l', hl', rfl⟩ := List.mem_map.mp hl
    exact h l' ((List.dropWhile_sublist _).subset (List.mem_reverse.mp hl'))
      (List.mem_reverse.mp hx)
  have hempty : (List.isEmpty ∘ List.reverse : List α → Bool) = List.isEmpty := by
    funext l
    simp
  rw [dropWhile_intercalate h, reverse_intercalate, dropWhile_intercalate hreverse,
    reverse_intercalate, List.dropWhile_map, hempty]
  simp [trimmed]

/-- Joined lists are divided into the lists, up to empty ones at both ends. -/
theorem trimmed_splitOn_intercalate {ls : List (List α)} (h : ∀ l ∈ ls, x ∉ l) :
    trimmed (([x].intercalate ls).splitOn x) = trimmed ls := by
  cases ls with
  | nil => rfl
  | cons l rest => rw [List.splitOn_intercalate x h (List.cons_ne_nil l rest)]

end Trimmed

end Transcription
