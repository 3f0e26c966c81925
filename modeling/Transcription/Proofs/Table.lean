import Mathlib.Data.List.Nodup
import Mathlib.Data.List.TakeWhile
import Transcription.Table

/-!
# What tables store

A table is determined by its look-ups, and an entry of a table is a key together with the value that
is looked up under it. The statements below read every operation as one on look-ups or on entries.
-/

namespace Transcription.Table

variable {κ α β : Type}

section Entries

variable [LT κ]

/-- The keys of a table ascend. -/
theorem keys_pairwise (t : Table κ α) : t.keys.Pairwise (· < ·) :=
  List.pairwise_map.mpr t.ascending

/-- A table without entries is empty. -/
theorem isEmpty_iff {t : Table κ α} : t.isEmpty = true ↔ t.entries = [] := List.isEmpty_iff

/-- An entry stays if it passes the test. -/
theorem mem_entries_filter {p : κ → α → Bool} {t : Table κ α} {e : κ × α} :
    e ∈ (t.filter p).entries ↔ e ∈ t.entries ∧ p e.1 e.2 = true :=
  List.mem_filter

/-- A table has a smallest key unless it is empty. -/
theorem minKey?_eq_none_iff {t : Table κ α} : t.minKey? = none ↔ t.entries = [] := by
  simp [minKey?]

/-- A changed value is found under its old key. -/
theorem get?_map [DecidableEq κ] (f : κ → α → β) (t : Table κ α) (k : κ) :
    (t.map f).get? k = (t.get? k).map (f k) := by
  obtain ⟨l, _⟩ := t
  induction l with
  | nil => rfl
  | cons hd tl ih =>
    rename_i h
    have ih := ih (List.pairwise_cons.mp h).2
    simp only [get?, map, List.map_cons, List.find?_cons] at ih ⊢
    by_cases hk : hd.1 = k
    · simp [hk]
    · simpa [hk] using ih

/-- Before the first key there is no last value. -/
theorem lastUpTo?_eq_none [DecidableLT κ] {t : Table κ α} {k : κ} (h : ∀ key ∈ t.keys, k < key) :
    t.lastUpTo? k = none := by
  have hnone : t.entries.takeWhile (fun e => ¬ k < e.1) = [] := by
    rw [List.takeWhile_eq_nil_iff]
    intro hpos
    simpa using h _ (List.mem_map_of_mem (List.getElem_mem hpos))
  rw [lastUpTo?, hnone]
  rfl

end Entries

section Reading

variable [LT κ] [DecidableEq κ] [LE κ] [Std.LawfulOrderLT κ]

private theorem find?_eq_some_of_mem {l : List (κ × α)} (h : l.Pairwise (fun a b => a.1 < b.1))
    {e : κ × α} (he : e ∈ l) : l.find? (fun e' => e'.1 = e.1) = some e := by
  induction l with
  | nil => simp at he
  | cons hd tl ih =>
    rw [List.pairwise_cons] at h
    rcases List.mem_cons.mp he with rfl | he
    · simp
    · have hne : hd.1 ≠ e.1 := Std.ne_of_lt (h.1 e he)
      simp [hne, ih h.2 he]

/-- An entry of a table is a key with the value that is looked up under it. -/
theorem mem_entries_iff {t : Table κ α} {k : κ} {a : α} :
    (k, a) ∈ t.entries ↔ t.get? k = some a := by
  constructor
  · intro h
    simp [get?, find?_eq_some_of_mem t.ascending h]
  · intro h
    obtain ⟨e, he, rfl⟩ := Option.map_eq_some_iff.mp h
    have hk : e.1 = k := by simpa using List.find?_some he
    exact hk ▸ List.mem_of_find?_eq_some he

/-- A key of a table is one under which something is found. -/
theorem mem_keys_iff {t : Table κ α} {k : κ} : k ∈ t.keys ↔ ∃ a, t.get? k = some a := by
  constructor
  · intro h
    obtain ⟨e, he, rfl⟩ := List.mem_map.mp h
    exact ⟨e.2, mem_entries_iff.mp he⟩
  · rintro ⟨a, ha⟩
    exact List.mem_map.mpr ⟨(k, a), mem_entries_iff.mpr ha, rfl⟩

/-- Nothing is found exactly under what is no key. -/
theorem get?_eq_none_iff {t : Table κ α} {k : κ} : t.get? k = none ↔ k ∉ t.keys := by
  rw [mem_keys_iff, ← Option.isSome_iff_exists, Option.not_isSome_iff_eq_none]

/-- A value of a table is one that is found under some key. -/
theorem mem_values_iff {t : Table κ α} {a : α} : a ∈ t.values ↔ ∃ k, t.get? k = some a := by
  constructor
  · intro h
    obtain ⟨e, he, rfl⟩ := List.mem_map.mp h
    exact ⟨e.1, mem_entries_iff.mp he⟩
  · rintro ⟨k, hk⟩
    exact List.mem_map.mpr ⟨(k, a), mem_entries_iff.mpr hk, rfl⟩

/-- Whether a table has a key is seen from its keys. -/
theorem contains_iff {t : Table κ α} {k : κ} : t.contains k = true ↔ k ∈ t.keys := by
  rw [mem_keys_iff, contains, Option.isSome_iff_exists]

omit [DecidableEq κ] in
private theorem eq_of_mem_iff {l m : List (κ × α)} (hl : l.Pairwise (fun a b => a.1 < b.1))
    (hm : m.Pairwise (fun a b => a.1 < b.1)) (h : ∀ e, e ∈ l ↔ e ∈ m) : l = m := by
  have hirrefl (e : κ × α) : ¬ e.1 < e.1 := Std.lt_irrefl
  have hasymm {a b : κ × α} (hab : a.1 < b.1) : ¬ b.1 < a.1 := fun hba =>
    (Std.LawfulOrderLT.lt_iff _ _).mp hab |>.2 ((Std.LawfulOrderLT.lt_iff _ _).mp hba).1
  induction l generalizing m with
  | nil =>
    cases m with
    | nil => rfl
    | cons e m => simpa using (h e).mpr List.mem_cons_self
  | cons a l ih =>
    cases m with
    | nil => simpa using (h a).mp List.mem_cons_self
    | cons b m =>
      rw [List.pairwise_cons] at hl hm
      have hab : a = b := by
        rcases List.mem_cons.mp ((h a).mp List.mem_cons_self) with hab | ha
        · exact hab
        · rcases List.mem_cons.mp ((h b).mpr List.mem_cons_self) with hba | hb
          · exact hba.symm
          · exact absurd (hl.1 b hb) (hasymm (hm.1 a ha))
      subst hab
      refine congrArg (a :: ·) (ih hl.2 hm.2 (fun e => ?_))
      constructor
      · intro he
        rcases List.mem_cons.mp ((h e).mp (List.mem_cons_of_mem _ he)) with rfl | he'
        · exact absurd (hl.1 e he) (hirrefl e)
        · exact he'
      · intro he
        rcases List.mem_cons.mp ((h e).mpr (List.mem_cons_of_mem _ he)) with rfl | he'
        · exact absurd (hm.1 e he) (hirrefl e)
        · exact he'

/-- Tables with the same look-ups are equal. -/
theorem ext_get? {s t : Table κ α} (h : ∀ k, s.get? k = t.get? k) : s = t := by
  have hmem : ∀ e, e ∈ s.entries ↔ e ∈ t.entries := fun e => by
    rw [show e = (e.1, e.2) from rfl, mem_entries_iff, mem_entries_iff, h]
  exact Table.ext (eq_of_mem_iff s.ascending t.ascending hmem)

variable [Std.IsLinearOrder κ]

omit [DecidableEq κ] in
/-- The smallest key of a table is one of its keys, and no key lies before it. -/
theorem minKey?_eq_some_iff {t : Table κ α} {k : κ} :
    t.minKey? = some k ↔ k ∈ t.keys ∧ ∀ k' ∈ t.keys, k ≤ k' := by
  have h := t.keys_pairwise
  have hhead : t.minKey? = t.keys.head? := by simp [minKey?, keys]
  rw [hhead]
  cases hkeys : t.keys with
  | nil => simp
  | cons hd tl =>
    rw [hkeys, List.pairwise_cons] at h
    simp only [List.head?_cons, Option.some.injEq, List.mem_cons]
    constructor
    · rintro rfl
      refine ⟨Or.inl rfl, ?_⟩
      rintro k' (rfl | hk')
      · exact Std.le_refl k'
      · exact Std.le_of_lt (h.1 k' hk')
    · rintro ⟨hmem, hle⟩
      rcases hmem with rfl | hmem
      · rfl
      · exact absurd (h.1 k hmem) (Std.not_lt.mpr (hle hd (Or.inl rfl)))

omit [DecidableEq κ] in
private theorem getLast?_takeWhile [DecidableLT κ] {l : List (κ × α)}
    (h : l.Pairwise (fun a b => a.1 < b.1)) {e : κ × α} (he : e ∈ l) {k : κ} (hle : ¬ k < e.1)
    (hlater : ∀ e' ∈ l, e.1 < e'.1 → k < e'.1) :
    (l.takeWhile (fun e' => ¬ k < e'.1)).getLast? = some e := by
  induction l with
  | nil => simp at he
  | cons first rest ih =>
    obtain ⟨hfirst, hrest⟩ := List.pairwise_cons.mp h
    have hafter := (List.forall_mem_cons.mp hlater).2
    rcases List.mem_cons.mp he with rfl | he
    · have hnone : rest.takeWhile (fun e' => ¬ k < e'.1) = [] := by
        rw [List.takeWhile_eq_nil_iff]
        intro hpos
        have hmem := List.getElem_mem hpos
        simpa using hafter _ hmem (hfirst _ hmem)
      rw [List.takeWhile_cons_of_pos (by simpa using hle), hnone]
      rfl
    · have hbefore : ¬ k < first.1 := fun hlt => hle (Std.lt_trans hlt (hfirst e he))
      rw [List.takeWhile_cons_of_pos (by simpa using hbefore), List.getLast?_cons,
        ih hrest he hafter]
      rfl

/-- The value of a key is the last one up to every place that is not before the key, but before all
later ones. -/
theorem lastUpTo?_eq_some [DecidableLT κ] {t : Table κ α} {key k : κ} {a : α}
    (hget : t.get? key = some a) (hle : ¬ k < key)
    (hlater : ∀ later ∈ t.keys, key < later → k < later) : t.lastUpTo? k = some a := by
  rw [lastUpTo?, getLast?_takeWhile t.ascending (mem_entries_iff.mpr hget) hle
    (fun e he => hlater e.1 (List.mem_map_of_mem he))]
  rfl

end Reading

section Writing

variable [LT κ] [DecidableLT κ] [DecidableEq κ] [LE κ] [Std.IsLinearOrder κ]
  [Std.LawfulOrderLT κ]

/-- After an insertion the entries are the new one and the old ones under other keys. -/
theorem mem_entries_insert {t : Table κ α} {k : κ} {a : α} {e : κ × α} :
    e ∈ (t.insert k a).entries ↔ e = (k, a) ∨ e.1 ≠ k ∧ e ∈ t.entries := by
  obtain ⟨k₂, a₂⟩ := e
  rw [mem_entries_iff, get?_insert, mem_entries_iff]
  by_cases h : k = k₂
  · subst h
    simp [eq_comm]
  · simp [h, Ne.symm h]

/-- After an insertion the keys are the new one and the old ones. -/
theorem mem_keys_insert {t : Table κ α} {k k₂ : κ} {a : α} :
    k₂ ∈ (t.insert k a).keys ↔ k₂ = k ∨ k₂ ∈ t.keys := by
  rw [mem_keys_iff, mem_keys_iff, get?_insert]
  by_cases h : k = k₂
  · simp [h]
  · simp [h, Ne.symm h]

private theorem get?_foldl_insert (pairs : List (κ × α)) (t : Table κ α) (k : κ) :
    (pairs.foldl (fun t e => t.insert e.1 e.2) t).get? k =
      ((pairs.reverse.find? (fun e => e.1 = k)).map Prod.snd).or (t.get? k) := by
  induction pairs generalizing t with
  | nil => simp
  | cons e rest ih =>
    rw [List.foldl_cons, ih, List.reverse_cons, List.find?_append, get?_insert]
    cases rest.reverse.find? (fun e => e.1 = k) with
    | some e' => simp
    | none => by_cases h : e.1 = k <;> simp [h]

/-- A collection stores the last value that is given for a key. -/
theorem get?_ofList (pairs : List (κ × α)) (k : κ) :
    (ofList pairs).get? k = (pairs.reverse.find? (fun e => e.1 = k)).map Prod.snd := by
  rw [ofList, get?_foldl_insert, get?_empty, Option.or_none]

/-- A collection has the entries it was given only. -/
theorem mem_of_mem_entries_ofList {pairs : List (κ × α)} {e : κ × α}
    (h : e ∈ (ofList pairs).entries) : e ∈ pairs := by
  obtain ⟨k, a⟩ := e
  rw [mem_entries_iff, get?_ofList] at h
  obtain ⟨e', he', rfl⟩ := Option.map_eq_some_iff.mp h
  have hk : e'.1 = k := by simpa using List.find?_some he'
  exact hk ▸ List.mem_reverse.mp (List.mem_of_find?_eq_some he')

/-- A collection has the keys it was given. -/
theorem mem_keys_ofList {pairs : List (κ × α)} {k : κ} :
    k ∈ (ofList pairs).keys ↔ k ∈ pairs.map Prod.fst := by
  rw [mem_keys_iff, get?_ofList]
  simp only [Option.map_eq_some_iff, List.mem_map]
  constructor
  · rintro ⟨_, e, he, _⟩
    exact ⟨e, List.mem_reverse.mp (List.mem_of_find?_eq_some he), by
      simpa using List.find?_some he⟩
  · rintro ⟨e, he, rfl⟩
    have hsome : (pairs.reverse.find? (fun e' => e'.1 = e.1)).isSome := by
      rw [List.find?_isSome]
      exact ⟨e, List.mem_reverse.mpr he, by simp⟩
    obtain ⟨e', he'⟩ := Option.isSome_iff_exists.mp hsome
    exact ⟨e'.2, e', he', rfl⟩

/-- With distinct keys a collection has all the entries it was given. -/
theorem mem_entries_ofList {pairs : List (κ × α)} (h : (pairs.map Prod.fst).Nodup)
    {e : κ × α} : e ∈ (ofList pairs).entries ↔ e ∈ pairs := by
  refine ⟨mem_of_mem_entries_ofList, fun he => ?_⟩
  have hkey : e.1 ∈ (ofList pairs).keys := mem_keys_ofList.mpr (List.mem_map.mpr ⟨e, he, rfl⟩)
  obtain ⟨e', he', hk⟩ := List.mem_map.mp hkey
  have heq : e' = e :=
    List.inj_on_of_nodup_map h (mem_of_mem_entries_ofList he') he hk
  exact heq ▸ he'

/-- With distinct keys a collection has exactly the entries it was given. -/
theorem entries_ofList_perm {pairs : List (κ × α)} (h : (pairs.map Prod.fst).Nodup) :
    (ofList pairs).entries.Perm pairs :=
  (List.perm_ext_iff_of_nodup
    (List.Nodup.of_map Prod.fst ((ofList pairs).keys_pairwise.imp Std.ne_of_lt))
    (List.Nodup.of_map Prod.fst h)).mpr (fun _ => mem_entries_ofList h)

/-- The entries of an ascending table are collected into the same table. -/
theorem ofList_entries (t : Table κ α) : ofList t.entries = t := by
  have hnodup : (t.entries.map Prod.fst).Nodup := t.keys_pairwise.imp Std.ne_of_lt
  refine ext_get? (fun k => Option.ext (fun a => ?_))
  rw [← mem_entries_iff, ← mem_entries_iff, mem_entries_ofList hnodup]

/-- In a table that is completed by another one the first one counts. -/
theorem get?_orElse (s t : Table κ α) (k : κ) :
    (s.orElse t).get? k = (s.get? k).or (t.get? k) := by
  rw [orElse, get?_foldl_insert]
  congr 1
  have hnodup : (s.entries.reverse.map Prod.fst).Nodup := by
    rw [List.map_reverse, List.nodup_reverse]
    exact s.keys_pairwise.imp Std.ne_of_lt
  have h := get?_ofList s.entries k
  rw [ofList_entries] at h
  exact h.symm

/-- Two insertions may be made in either order, unless they store different values under one key. -/
theorem insert_comm {k k' : κ} {a b : α} (h : k = k' → a = b) (t : Table κ α) :
    (t.insert k a).insert k' b = (t.insert k' b).insert k a := by
  refine ext_get? (fun k₂ => ?_)
  simp only [get?_insert]
  by_cases hk : k = k'
  · rw [hk, h hk]
  · by_cases hk₂ : k = k₂
    · subst hk₂
      simp [Ne.symm hk]
    · simp [hk₂]

/-- Storing a value where it is stored already changes nothing. -/
theorem insert_eq_self {t : Table κ α} {k : κ} {a : α} (h : t.get? k = some a) :
    t.insert k a = t := by
  refine ext_get? (fun k₂ => ?_)
  rw [get?_insert]
  split
  · rename_i hk
    rw [← hk, h]
  · rfl

end Writing

/-! ### Tables in tables -/

section Nested

variable {κ' : Type} [LT κ] [DecidableLT κ] [DecidableEq κ] [LE κ] [Std.IsLinearOrder κ]
  [Std.LawfulOrderLT κ] [LT κ']

omit [DecidableLT κ] [LE κ] [Std.IsLinearOrder κ] [Std.LawfulOrderLT κ] in
/-- A table with keys that is found under a key is stored there. -/
theorem get?_of_mem_keys {t : Table κ (Table κ' α)} {k : κ} {k' : κ'}
    (h : k' ∈ ((t.get? k).getD .empty).keys) : t.get? k = some ((t.get? k).getD .empty) := by
  cases hget : t.get? k with
  | none =>
    rw [hget] at h
    cases h
  | some s => rfl

omit [DecidableLT κ] [Std.IsLinearOrder κ] in
/-- The keys of a stored table are among those of all of them. -/
theorem mem_flatMap_keys {t : Table κ (Table κ' α)} {k : κ} {k' : κ'}
    (h : k' ∈ ((t.get? k).getD .empty).keys) : k' ∈ t.values.flatMap keys :=
  List.mem_flatMap.mpr ⟨_, mem_values_iff.mpr ⟨k, get?_of_mem_keys h⟩, h⟩

/-- Change the table that is stored under a key; where there is none it is empty. -/
def alterIn (t : Table κ (Table κ' α)) (k : κ) (f : Table κ' α → Table κ' α) :
    Table κ (Table κ' α) :=
  t.insert k (f ((t.get? k).getD .empty))

/-- The table under the key is changed, and no other one. -/
theorem getD_alterIn (t : Table κ (Table κ' α)) (k k₂ : κ) (f : Table κ' α → Table κ' α) :
    ((t.alterIn k f).get? k₂).getD .empty =
      if k = k₂ then f ((t.get? k).getD .empty) else (t.get? k₂).getD .empty := by
  rw [alterIn, get?_insert]
  split
  · rfl
  · rfl

/-- A change that keeps the stored table keeps all of them. -/
theorem alterIn_eq_self {t : Table κ (Table κ' α)} {k : κ} {s : Table κ' α}
    {f : Table κ' α → Table κ' α} (hget : t.get? k = some s) (hf : f s = s) :
    t.alterIn k f = t := by
  have hstored : f ((t.get? k).getD .empty) = s := by rw [hget, Option.getD_some, hf]
  rw [alterIn, hstored]
  exact insert_eq_self hget

/-- Changes of stored tables may be made in either order if they may for each single table. -/
theorem alterIn_comm {k k' : κ} {f g : Table κ' α → Table κ' α}
    (h : k = k' → ∀ s, g (f s) = f (g s)) (t : Table κ (Table κ' α)) :
    (t.alterIn k f).alterIn k' g = (t.alterIn k' g).alterIn k f := by
  unfold alterIn
  by_cases hk : k = k'
  · subst hk
    refine ext_get? (fun k₂ => ?_)
    simp only [get?_insert, if_pos, Option.getD_some, h rfl]
    split
    · rfl
    · rfl
  · simp only [get?_insert, if_neg hk, if_neg (Ne.symm hk)]
    exact insert_comm (fun heq => absurd heq hk) t

/-- What a change adds to the lists of the stored tables is added to the list of all of them. -/
theorem mem_flatMap_alterIn {β : Type} {g : Table κ' α → List β} {x : β} {P : Prop} {k : κ}
    {f : Table κ' α → Table κ' α} (hempty : x ∉ g .empty)
    (hf : ∀ s, x ∈ g (f s) ↔ P ∨ x ∈ g s) (t : Table κ (Table κ' α)) :
    x ∈ (t.alterIn k f).values.flatMap g ↔ P ∨ x ∈ t.values.flatMap g := by
  simp only [List.mem_flatMap, mem_values_iff, alterIn, get?_insert]
  constructor
  · rintro ⟨s, ⟨k₂, hget⟩, hs⟩
    split at hget
    · cases hget
      rcases (hf _).mp hs with hp | hold
      · exact Or.inl hp
      · cases hstored : t.get? k with
        | none =>
          rw [hstored] at hold
          exact absurd hold hempty
        | some s =>
          rw [hstored] at hold
          exact Or.inr ⟨s, ⟨k, hstored⟩, hold⟩
    · exact Or.inr ⟨s, ⟨k₂, hget⟩, hs⟩
  · rintro (hp | ⟨s, ⟨k₂, hget⟩, hs⟩)
    · exact ⟨_, ⟨k, if_pos rfl⟩, (hf _).mpr (Or.inl hp)⟩
    · by_cases hk : k = k₂
      · subst hk
        refine ⟨_, ⟨k, if_pos rfl⟩, (hf _).mpr (Or.inr ?_)⟩
        rwa [hget]
      · exact ⟨s, ⟨k₂, by rw [if_neg hk, hget]⟩, hs⟩

end Nested

/-! ### What holds of all entries -/

section All

variable [LT κ] {P : κ → α → Prop}

/-- All entries of a table are of a kind. -/
def All (P : κ → α → Prop) (t : Table κ α) : Prop := ∀ e ∈ t.entries, P e.1 e.2

/-- A table has entries, and all of them are of a kind. -/
def Filled (P : κ → α → Prop) (t : Table κ α) : Prop := t.entries ≠ [] ∧ t.All P

/-- The empty table has no entry of another kind. -/
theorem All.empty : (empty : Table κ α).All P := fun _ he => absurd he List.not_mem_nil

variable [DecidableEq κ] [LE κ] [Std.LawfulOrderLT κ] {t : Table κ α} {k : κ} {a : α} {κ' : Type}
  [LT κ'] {Q : κ → Prop} {R : κ' → α → Prop} {tables : Table κ (Table κ' α)}

/-- What is found in a table is of the kind of its entries. -/
theorem All.of_get? (h : t.All P) (hget : t.get? k = some a) : P k a :=
  h (k, a) (mem_entries_iff.mpr hget)

/-- A stored table has entries of the kind that all stored tables have. -/
theorem All.getD (h : tables.All (fun k t => Q k ∧ t.Filled R)) (k : κ) :
    ((tables.get? k).getD .empty).All R := by
  cases hget : tables.get? k with
  | none => exact All.empty
  | some t => exact (h.of_get? hget).2.2

variable [DecidableLT κ] [Std.IsLinearOrder κ]

/-- An entry of the same kind fills a table. -/
theorem All.insert (h : t.All P) (ha : P k a) : (t.insert k a).Filled P := by
  constructor
  · intro hnil
    have hmem : (k, a) ∈ (t.insert k a).entries := mem_entries_insert.mpr (Or.inl rfl)
    rw [hnil] at hmem
    cases hmem
  · intro e he
    rcases mem_entries_insert.mp he with rfl | ⟨_, hold⟩
    · exact ha
    · exact h e hold

/-- A change that fills a table with entries of a kind keeps the kind of all stored tables. -/
theorem All.alterIn (h : tables.All (fun k t => Q k ∧ t.Filled R)) (hk : Q k)
    {f : Table κ' α → Table κ' α} (hf : ∀ t, t.All R → (f t).Filled R) :
    (tables.alterIn k f).Filled (fun k t => Q k ∧ t.Filled R) :=
  h.insert ⟨hk, hf _ (h.getD k)⟩

end All

end Transcription.Table
