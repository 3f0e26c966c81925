/-!
# Finite tables with ascending keys

A table holds at most one value per key and lists its entries by ascending key, so two tables with
the same look-ups are the same table. Ticks, channels, pitches and command names are all keys of
such tables. The main statements describe each operation by what it does to `get?`.
-/

namespace Transcription

variable {κ α β : Type}

/-- A finite map whose entries are listed by strictly ascending key. -/
structure Table (κ : Type) [LT κ] (α : Type) where
  /-- The key-value pairs, in ascending order of their keys. -/
  entries : List (κ × α)
  /-- No key occurs twice and the keys ascend. -/
  ascending : entries.Pairwise (fun a b => a.1 < b.1)

namespace Table

section Reading

variable [LT κ]

/-- The table without entries. -/
def empty : Table κ α := ⟨[], .nil⟩

instance : EmptyCollection (Table κ α) := ⟨empty⟩

instance : Inhabited (Table κ α) := ⟨empty⟩

instance [DecidableEq κ] [DecidableEq α] : DecidableEq (Table κ α) := fun s t =>
  decidable_of_iff (s.entries = t.entries) (by cases s; cases t; simp)

/-- Whether a table has no entries. -/
def isEmpty (t : Table κ α) : Bool := t.entries.isEmpty

/-- The keys of a table, ascending. -/
def keys (t : Table κ α) : List κ := t.entries.map Prod.fst

/-- The values of a table, by ascending key. -/
def values (t : Table κ α) : List α := t.entries.map Prod.snd

/-- The value stored under a key. -/
def get? [DecidableEq κ] (t : Table κ α) (k : κ) : Option α :=
  (t.entries.find? (fun e => e.1 = k)).map Prod.snd

/-- Whether a key has a value. -/
def contains [DecidableEq κ] (t : Table κ α) (k : κ) : Bool := (t.get? k).isSome

/-- The smallest key of a table. -/
def minKey? (t : Table κ α) : Option κ := t.entries.head?.map Prod.fst

/-- The smallest key that lies strictly after `k`. -/
def firstAfter? [DecidableLT κ] (t : Table κ α) (k : κ) : Option κ :=
  t.keys.find? (fun k' => k < k')

/-- The value of the largest key that does not lie after `k`. -/
def lastUpTo? [DecidableLT κ] (t : Table κ α) (k : κ) : Option α :=
  (t.entries.takeWhile (fun e => ¬ k < e.1)).getLast?.map Prod.snd

/-- The entries that pass a test. -/
def filter (p : κ → α → Bool) (t : Table κ α) : Table κ α :=
  ⟨t.entries.filter (fun e => p e.1 e.2), t.ascending.filter _⟩

/-- Change every value, keeping the keys. -/
def map (f : κ → α → β) (t : Table κ α) : Table κ β :=
  ⟨t.entries.map (fun e => (e.1, f e.1 e.2)), List.pairwise_map.mpr (t.ascending.imp id)⟩

/-- The empty table stores nothing. -/
@[simp] theorem get?_empty [DecidableEq κ] (k : κ) : (empty : Table κ α).get? k = none := rfl

/-- Tables are equal as soon as their entries are. -/
@[ext] theorem ext {s t : Table κ α} (h : s.entries = t.entries) : s = t := by
  cases s; cases t; simp_all

end Reading

section Writing

variable [LT κ] [DecidableLT κ] [DecidableEq κ]

/-- Put a value into an ascending list of entries, replacing the value of an equal key. -/
def insertEntry (k : κ) (a : α) : List (κ × α) → List (κ × α)
  | [] => [(k, a)]
  | (k', a') :: rest =>
    if k < k' then (k, a) :: (k', a') :: rest
    else if k' = k then (k, a) :: rest
    else (k', a') :: insertEntry k a rest

/-- An entry of an extended list is the new one or an old one. -/
theorem mem_of_mem_insertEntry {k : κ} {a : α} {e : κ × α} {l : List (κ × α)}
    (h : e ∈ insertEntry k a l) : e = (k, a) ∨ e ∈ l := by
  induction l with
  | nil => simpa [insertEntry] using h
  | cons hd tl ih =>
    obtain ⟨k', a'⟩ := hd
    rw [insertEntry] at h
    split at h
    · simpa using h
    · split at h
      · rcases List.mem_cons.mp h with h | h
        · exact .inl h
        · exact .inr (List.mem_cons_of_mem _ h)
      · rcases List.mem_cons.mp h with h | h
        · exact .inr (h ▸ List.mem_cons_self)
        · exact (ih h).imp_right (List.mem_cons_of_mem _)

/-- Looking up a key after an insertion finds the new value under the new key and the old values
under all others. -/
theorem find?_insertEntry (k k₂ : κ) (a : α) (l : List (κ × α)) :
    ((insertEntry k a l).find? (fun e => e.1 = k₂)).map Prod.snd =
      if k = k₂ then some a else (l.find? (fun e => e.1 = k₂)).map Prod.snd := by
  induction l with
  | nil => by_cases h : k = k₂ <;> simp [insertEntry, h]
  | cons hd tl ih =>
    obtain ⟨k', a'⟩ := hd
    rw [insertEntry]
    split
    · by_cases h : k = k₂ <;> simp [h]
    · split
      · rename_i h'
        subst h'
        by_cases h : k' = k₂ <;> simp [h]
      · rename_i h'
        by_cases h : k' = k₂
        · subst h
          simp [Ne.symm h']
        · simp [h, ih]

variable [LE κ] [Std.IsLinearOrder κ] [Std.LawfulOrderLT κ]

/-- Inserting keeps the keys ascending. -/
theorem insertEntry_pairwise (k : κ) (a : α) {l : List (κ × α)}
    (h : l.Pairwise (fun a b => a.1 < b.1)) :
    (insertEntry k a l).Pairwise (fun a b => a.1 < b.1) := by
  induction l with
  | nil => simp [insertEntry]
  | cons hd tl ih =>
    obtain ⟨k', a'⟩ := hd
    rw [List.pairwise_cons] at h
    rw [insertEntry]
    split
    · rename_i hlt
      refine List.pairwise_cons.mpr ⟨fun e he => ?_, List.pairwise_cons.mpr h⟩
      rcases List.mem_cons.mp he with he | he
      · exact he ▸ hlt
      · exact Std.lt_trans hlt (h.1 e he)
    · split
      · rename_i heq
        exact List.pairwise_cons.mpr ⟨fun e he => heq ▸ h.1 e he, h.2⟩
      · rename_i hlt hne
        refine List.pairwise_cons.mpr ⟨fun e he => ?_, ih h.2⟩
        rcases mem_of_mem_insertEntry he with he | he
        · exact he ▸ Std.lt_of_le_of_ne (Std.not_lt.mp hlt) hne
        · exact h.1 e he

/-- Store a value under a key, replacing the value that was there. -/
def insert (t : Table κ α) (k : κ) (a : α) : Table κ α :=
  ⟨insertEntry k a t.entries, insertEntry_pairwise k a t.ascending⟩

/-- Store under a key what a function makes of the present value. -/
def alter (t : Table κ α) (k : κ) (f : Option α → α) : Table κ α := t.insert k (f (t.get? k))

/-- Collect pairs into a table; of two pairs with one key the later wins. -/
def ofList (pairs : List (κ × α)) : Table κ α :=
  pairs.foldl (fun t e => t.insert e.1 e.2) empty

/-- Add the entries of a second table whose keys are not in the first one. -/
def orElse (s t : Table κ α) : Table κ α :=
  s.entries.foldl (fun acc e => acc.insert e.1 e.2) t

/-- An insertion changes the look-up of its own key only. -/
theorem get?_insert (t : Table κ α) (k k₂ : κ) (a : α) :
    (t.insert k a).get? k₂ = if k = k₂ then some a else t.get? k₂ :=
  find?_insertEntry k k₂ a t.entries

end Writing

end Table

end Transcription
