import Transcription.Proofs.Length.Greedy

/-!
# Tokens of the length tables

The tokens of the ladder do not depend on the resolution, and no two steps of the ladder have the
same token. So a token stands for one number of ticks in a table, and a length that is tied from
tokens is read back as the summands that it was tied from.
-/

namespace Transcription

/-- A list is read back item by item. -/
theorem mapM_map_eq_some {α β : Type} {read : α → Option β} {write : β → α} {l : List β}
    (h : ∀ b ∈ l, read (write b) = some b) : (l.map write).mapM read = some l := by
  induction l with
  | nil => rfl
  | cons b l ih =>
    have hrest := ih (fun b' hb' => h b' (List.mem_cons_of_mem _ hb'))
    rw [List.map_cons, List.mapM_cons, h b List.mem_cons_self, hrest]
    rfl

/-- In a list that is read item by item every item is read. -/
theorem exists_of_mapM_eq_some {α β : Type} {read : α → Option β} {l : List α} {l' : List β}
    (h : l.mapM read = some l') : ∀ a ∈ l, ∃ b, read a = some b := by
  induction l generalizing l' with
  | nil => simp
  | cons a l ih =>
    rw [List.mapM_cons] at h
    obtain ⟨b, hfirst, h⟩ := Option.bind_eq_some_iff.mp h
    obtain ⟨rest, hrest, -⟩ := Option.bind_eq_some_iff.mp h
    exact List.forall_mem_cons.mpr ⟨⟨b, hfirst⟩, ih hrest⟩

/-- A joined list has the characters of its items and the character that joins them. -/
theorem mem_intercalate_singleton {α : Type} {x c : α} {l : List (List α)}
    (hc : c ∈ [x].intercalate l) : c = x ∨ ∃ item ∈ l, c ∈ item := by
  induction l with
  | nil => simp at hc
  | cons item rest ih =>
    cases rest with
    | nil => exact Or.inr ⟨item, by simp, by simpa using hc⟩
    | cons item' rest =>
      rw [List.intercalate_cons_cons] at hc
      simp only [List.append_assoc, List.mem_append, List.mem_singleton] at hc
      rcases hc with hc | hc | hc
      · exact Or.inr ⟨item, List.mem_cons_self, hc⟩
      · exact Or.inl hc
      · rcases ih hc with hx | ⟨item'', hmem, hc⟩
        · exact Or.inl hx
        · exact Or.inr ⟨item'', List.mem_cons_of_mem _ hmem, hc⟩

namespace Length

/-- The characters of tokens. -/
def isTokenChar (c : Char) : Bool := c.isDigit || c = '.'

/-- A token is not empty and consists of digits and dots. -/
def IsToken (token : String) : Prop :=
  token.toList ≠ [] ∧ ∀ c ∈ token.toList, isTokenChar c = true

instance (token : String) : Decidable (IsToken token) :=
  decidable_of_iff (token.toList ≠ [] ∧ token.toList.all isTokenChar = true) (by simp [IsToken])

/-- The tokens that a length is tied from. -/
def tokens (length : String) : List String := (length.toList.splitOn '~').map String.ofList

/-- The tokens of the ladder are the same at every resolution. -/
theorem tokens_restLadder (resolution : Int) :
    (restLadder resolution).map Prod.snd = (restLadder 1).map Prod.snd := rfl

/-- The steps of the ladder have different tokens. -/
theorem nodup_tokens (resolution : Int) : ((restLadder resolution).map Prod.snd).Nodup := by
  rw [tokens_restLadder]
  decide +kernel

/-- The steps of the ladder have tokens of digits and dots. -/
theorem isToken_of_mem_ladder {resolution : Int} {e : Int × String}
    (he : e ∈ restLadder resolution) : IsToken e.2 := by
  have hall : ∀ token ∈ (restLadder 1).map Prod.snd, IsToken token := by decide +kernel
  exact hall e.2 (tokens_restLadder resolution ▸ List.mem_map.mpr ⟨e, he, rfl⟩)

/-- Of the tokens of the ladder, those of the triplets of base lengths are triplets, and no others
are. -/
theorem isTriplet_iff_of_mem_ladder {resolution : Int} {token : String}
    (htoken : token ∈ (restLadder resolution).map Prod.snd) :
    isTriplet token = true ↔ ∃ r ∈ noteRungs, token = tripletToken r.base := by
  have hall : ∀ token ∈ (restLadder 1).map Prod.snd,
      isTriplet token = true ↔ ∃ r ∈ noteRungs, token = tripletToken r.base := by decide +kernel
  exact hall token (tokens_restLadder resolution ▸ htoken)

example : noteRungs.map (fun r => tripletToken r.base) = ["48", "24", "12", "6", "3"] := by
  decide +kernel

/-- The note ladder is the first part of the rest ladder. -/
theorem noteLadder_subset (resolution : Int) : noteLadder resolution ⊆ restLadder resolution :=
  List.subset_append_left _ _

/-- A table of a ladder has steps of the ladder only, all of them positive. -/
theorem mem_of_mem_tableOf {ladder : List (Int × String)} {e : Int × String}
    (he : e ∈ (tableOf ladder).entries) : e ∈ ladder ∧ 0 < e.1 := by
  simpa using Table.mem_of_mem_entries_ofList he

/-- A step of the ladder is a length of the table if it takes up time. -/
theorem mem_keys_tableOf {ladder : List (Int × String)} {e : Int × String} (he : e ∈ ladder)
    (hpos : 0 < e.1) : e.1 ∈ (tableOf ladder).keys :=
  Table.mem_keys_ofList.mpr
    (List.mem_map_of_mem (List.mem_filter.mpr ⟨he, decide_eq_true hpos⟩))

end Length

namespace LengthTable

/-- A table whose entries are positive steps of the ladder at some resolution. -/
def OfLadder (table : LengthTable) : Prop :=
  ∃ resolution, ∀ e ∈ table.entries, e ∈ Length.restLadder resolution ∧ 0 < e.1

/-- The note lengths at a resolution are steps of the ladder. -/
theorem ofLadder_noteLengths (resolution : Int) : OfLadder (Length.noteLengths resolution) :=
  ⟨resolution, fun _ he =>
    ⟨Length.noteLadder_subset resolution (Length.mem_of_mem_tableOf he).1,
      (Length.mem_of_mem_tableOf he).2⟩⟩

/-- The rest lengths at a resolution are steps of the ladder. -/
theorem ofLadder_restLengths (resolution : Int) : OfLadder (Length.restLengths resolution) :=
  ⟨resolution, fun _ he => Length.mem_of_mem_tableOf he⟩

/-- Every length of a ladder takes up time. -/
theorem OfLadder.pos {table : LengthTable} (h : table.OfLadder) {e : Int × String}
    (he : e ∈ table.entries) : 0 < e.1 := by
  obtain ⟨_, h⟩ := h
  exact (h e he).2

/-- The tokens of a ladder's table consist of digits and dots. -/
theorem OfLadder.isToken {table : LengthTable} (h : table.OfLadder) {e : Int × String}
    (he : e ∈ table.entries) : Length.IsToken e.2 := by
  obtain ⟨_, h⟩ := h
  exact Length.isToken_of_mem_ladder (h e he).1

/-- A token stands for one entry of a ladder's table. -/
theorem OfLadder.eq_of_token_eq {table : LengthTable} (h : table.OfLadder) {e e' : Int × String}
    (he : e ∈ table.entries) (he' : e' ∈ table.entries) (heq : e.2 = e'.2) : e = e' := by
  obtain ⟨resolution, h⟩ := h
  exact List.inj_on_of_nodup_map (Length.nodup_tokens resolution) (h e he).1 (h e' he').1 heq

/-! ### Reading lengths -/

/-- The entry of a table that has a token. -/
def entryOf? (table : LengthTable) (token : List Char) : Option (Int × String) :=
  table.entries.find? (fun e => e.2.toList = token)

/-- The entries of a table from which a length is tied. -/
def summands? (table : LengthTable) (length : String) : Option (List (Int × String)) :=
  (length.toList.splitOn '~').mapM table.entryOf?

/-- The ticks of a length. -/
def ticks? (table : LengthTable) (length : String) : Option Int :=
  (table.summands? length).map ticks

/-- The entry of a token is found by the token. -/
theorem OfLadder.entryOf?_token {table : LengthTable} (h : table.OfLadder) {e : Int × String}
    (he : e ∈ table.entries) : table.entryOf? e.2.toList = some e := by
  have hsome : (table.entryOf? e.2.toList).isSome := by
    rw [entryOf?, List.find?_isSome]
    exact ⟨e, he, by simp⟩
  obtain ⟨e', he'⟩ := Option.isSome_iff_exists.mp hsome
  have htoken : e'.2.toList = e.2.toList := by simpa using List.find?_some he'
  have heq := h.eq_of_token_eq (List.mem_of_find?_eq_some he') he (String.toList_inj.mp htoken)
  exact heq ▸ he'

private theorem toList_tie (tokens : List String) :
    (Length.tie tokens).toList = ['~'].intercalate (tokens.map String.toList) :=
  String.toList_intercalate

/-- A length that is tied from tokens of a ladder's table is divided into these tokens again. -/
theorem OfLadder.splitOn_text {table : LengthTable} (h : table.OfLadder)
    {summands : List (Int × String)} (hmem : ∀ e ∈ summands, e ∈ table.entries)
    (hne : summands ≠ []) :
    (text summands).toList.splitOn '~' = summands.map (fun e => e.2.toList) := by
  rw [text, toList_tie, List.map_map, List.splitOn_intercalate]
  · rfl
  · intro token htoken htie
    obtain ⟨e, he, rfl⟩ := List.mem_map.mp htoken
    exact absurd ((h.isToken (hmem e he)).2 '~' htie) (by decide)
  · simpa using hne

/-- A length that is tied from tokens of a ladder's table is read back as its summands. -/
theorem OfLadder.summands?_text {table : LengthTable} (h : table.OfLadder)
    {summands : List (Int × String)} (hmem : ∀ e ∈ summands, e ∈ table.entries)
    (hne : summands ≠ []) : table.summands? (text summands) = some summands := by
  rw [summands?, h.splitOn_text hmem hne]
  exact mapM_map_eq_some (fun e he => h.entryOf?_token (hmem e he))

/-- A length that is tied from tokens of a ladder's table has these tokens. -/
theorem OfLadder.tokens_text {table : LengthTable} (h : table.OfLadder)
    {summands : List (Int × String)} (hmem : ∀ e ∈ summands, e ∈ table.entries)
    (hne : summands ≠ []) : Length.tokens (text summands) = summands.map Prod.snd := by
  rw [Length.tokens, h.splitOn_text hmem hne, List.map_map]
  exact List.map_congr_left (fun e _ => String.ofList_toList)

/-- A length that is tied from tokens of a ladder's table has the ticks of its summands. -/
theorem OfLadder.ticks?_text {table : LengthTable} (h : table.OfLadder)
    {summands : List (Int × String)} (hmem : ∀ e ∈ summands, e ∈ table.entries)
    (hne : summands ≠ []) : table.ticks? (text summands) = some (ticks summands) := by
  rw [ticks?, h.summands?_text hmem hne, Option.map_some]

/-- Among the tokens of a length that a ladder's table has, the triplets are those of base
lengths. -/
theorem OfLadder.isTriplet_iff {table : LengthTable} (h : table.OfLadder) {length : String}
    (hticks : (table.ticks? length).isSome) {token : String}
    (htoken : token ∈ Length.tokens length) :
    Length.isTriplet token = true ↔
      ∃ r ∈ Length.noteRungs, token = Length.tripletToken r.base := by
  rw [ticks?, Option.isSome_map] at hticks
  obtain ⟨summands, hsummands⟩ := Option.isSome_iff_exists.mp hticks
  obtain ⟨piece, hpiece, rfl⟩ := List.mem_map.mp htoken
  obtain ⟨e, hentry⟩ := exists_of_mapM_eq_some hsummands piece hpiece
  have hpiece : e.2.toList = piece := by simpa using List.find?_some hentry
  obtain ⟨resolution, h⟩ := h
  refine @Length.isTriplet_iff_of_mem_ladder resolution _ ?_
  rw [← hpiece, String.ofList_toList]
  exact List.mem_map_of_mem (h e (List.mem_of_find?_eq_some hentry)).1

/-- The characters of a length: digits, dots and ties. -/
def isLengthChar (c : Char) : Bool := Length.isTokenChar c || c = '~'

/-- A length is not empty and consists of digits, dots and ties. -/
def IsLength (length : String) : Prop :=
  length.toList ≠ [] ∧ ∀ c ∈ length.toList, isLengthChar c = true

/-- What is tied from tokens of a ladder's table is a length. -/
theorem OfLadder.isLength_text {table : LengthTable} (h : table.OfLadder)
    {summands : List (Int × String)} (hmem : ∀ e ∈ summands, e ∈ table.entries)
    (hne : summands ≠ []) : IsLength (text summands) := by
  obtain ⟨first, rest, rfl⟩ := List.exists_cons_of_ne_nil hne
  have htext : (text (first :: rest)).toList =
      ['~'].intercalate (first.2.toList :: rest.map (fun e => e.2.toList)) := by
    rw [text, toList_tie, List.map_map]
    rfl
  constructor
  · have hfirst := (h.isToken (hmem first List.mem_cons_self)).1
    rw [htext]
    cases rest with
    | nil => simpa using hfirst
    | cons second rest => simp [hfirst]
  · intro c hc
    rw [htext] at hc
    rcases mem_intercalate_singleton hc with rfl | ⟨token, htoken, hc⟩
    · decide
    · have hmap : token ∈ (first :: rest).map (fun e => e.2.toList) := by simpa using htoken
      obtain ⟨e, he, rfl⟩ := List.mem_map.mp hmap
      simp [isLengthChar, (h.isToken (hmem e he)).2 c hc]

end LengthTable

end Transcription
