import Mathlib.Data.List.Induction
import Mathlib.Data.List.Nodup
import YulPlus.Json.Parser
import YulPlus.Proofs.Json.Scalars

/-!
# Writing and reading JSON

Both layouts of a value spell the same tokens (`tokensOf`), and these are read as the value, so a
value is read as it was written, whatever the layout. This holds of the portable values
(`Portable`): those without floating-point numbers whose keys are texts, each key once in its map,
and whose integers the reader does not take to have too many digits.

The reader holds the containers that are open on a stack, so what it makes of a value is said for
every stack and for every text behind the value (`Reads`). -/

namespace YulPlus

open Text

namespace Json

/-! ### The tokens of a value -/

mutual

/-- The tokens of a value. -/
def tokensOf : Value → List Token
  | .scalar s => [.scalar s]
  | .list items => .openBracket :: (itemTokens items ++ [.closeBracket])
  | .map entries => .openBrace :: (entryTokens entries ++ [.closeBrace])

/-- The tokens of items with commas between them. -/
def itemTokens : List Value → List Token
  | [] => []
  | [v] => tokensOf v
  | v :: next :: rest => tokensOf v ++ .comma :: itemTokens (next :: rest)

/-- The tokens of entries with commas between them. -/
def entryTokens : List (Scalar × Value) → List Token
  | [] => []
  | [(key, v)] => .scalar key :: .colon :: tokensOf v
  | (key, v) :: next :: rest =>
    .scalar key :: .colon :: tokensOf v ++ .comma :: entryTokens (next :: rest)

end

/-- The values that are read as they are written, by a reader with a limit for the digits of an
integer. -/
inductive Portable (limit : Option Nat) : Value → Prop
  | null : Portable limit .null
  | bool (b : Bool) : Portable limit (.bool b)
  | int (n : Int) (h : isOversized limit (Nat.toDigits 10 n.natAbs) = false) :
    Portable limit (.int n)
  | text (s : Text) : Portable limit (.text s)
  | list (items : List Value) (h : ∀ v ∈ items, Portable limit v) : Portable limit (.list items)
  | record (entries : List (Text × Value)) (hkeys : (entries.map (·.1)).Nodup)
    (h : ∀ entry ∈ entries, Portable limit entry.2) : Portable limit (.record entries)

section

variable {limit : Option Nat} {style : Style} {level : Nat} {v : Value}

/-- A record whose field names are given as strings. -/
theorem Portable.fields {entries : List (String × Value)} (hkeys : (entries.map (·.1)).Nodup)
    (h : ∀ entry ∈ entries, Portable limit entry.2) : Portable limit (.fields entries) := by
  refine .record _ ?_ (List.forall_mem_map.mpr h)
  rw [List.map_map]
  have hinjective : Function.Injective String.toList := fun _ _ ↦ String.toList_injective
  have hnodup : ((entries.map (·.1)).map String.toList).Nodup := hkeys.map hinjective
  rwa [List.map_map] at hnodup

/-! ### What is written one after the other -/

/-- Lists are written item by item with a separator in between. -/
structure Separated {α β : Type} (separator : List β) (one : α → List β) (many : List α → List β) :
    Prop where
  nil : many [] = []
  single : ∀ a, many [a] = one a
  more : ∀ a b rest, many (a :: b :: rest) = one a ++ (separator ++ many (b :: rest))

theorem Separated.spells {α : Type} {gap : Text} {one : α → Text} {many : List α → Text}
    {oneTokens : α → List Token} {manyTokens : List α → List Token} {xs : List α}
    (hwritten : Separated (',' :: gap) one many)
    (htokens : Separated [.comma] oneTokens manyTokens) (hgap : ∀ c ∈ gap, isSpace c = true)
    (h : ∀ a ∈ xs, Spells limit (one a) (oneTokens a)) :
    Spells limit (many xs) (manyTokens xs) := by
  induction xs with
  | nil =>
    rw [hwritten.nil, htokens.nil]
    exact .nil
  | cons a xs ih =>
    have hone : Spells limit (one a) (oneTokens a) := h a List.mem_cons_self
    have hrest : Spells limit (many xs) (manyTokens xs) :=
      ih fun b hb ↦ h b (List.mem_cons_of_mem a hb)
    cases xs with
    | nil => rwa [hwritten.single, htokens.single]
    | cons b xs =>
      rw [hwritten.more, htokens.more]
      refine hone.append (.mark (by decide) (fun _ ↦ rfl) (hrest.skip hgap)) fun rest _ ↦ ?_
      exact ends_cons.mpr (by decide)

/-- What stands between two brackets, with space inside of them. -/
theorem Spells.enclosed {opening closing : Char} {opened closed : Token} {front back s : Text}
    {ts : List Token} (hopening : isSpace opening = false)
    (hopened : ∀ rest, token? limit (opening :: rest) = some (opened, rest))
    (hclosing : isSpace closing = false)
    (hclosed : ∀ rest, token? limit (closing :: rest) = some (closed, rest))
    (hends : Ends [closing]) (hfront : ∀ c ∈ front, isSpace c = true)
    (hback : ∀ c ∈ back, isSpace c = true) (h : Spells limit s ts) :
    Spells limit (opening :: (front ++ (s ++ (back ++ [closing]))))
      (opened :: (ts ++ [closed])) := by
  refine .mark hopening hopened (.skip hfront (h.append ?_ fun rest hrest ↦ ?_))
  · exact .skip hback (.mark hclosing hclosed .nil)
  · rw [List.append_assoc]
    exact ends_append_of_isSpace hback (ends_cons.mpr (ends_cons.mp hends))

/-! ### The layouts -/

theorem separated_itemTokens : Separated [.comma] tokensOf itemTokens :=
  ⟨rfl, fun _ ↦ rfl, fun _ _ _ ↦ rfl⟩

theorem separated_entryTokens :
    Separated [.comma] (fun e ↦ .scalar e.1 :: .colon :: tokensOf e.2) entryTokens :=
  ⟨rfl, fun _ ↦ rfl, fun _ _ _ ↦ rfl⟩

theorem separated_compactItems : Separated [','] (compactWith style) (compactItems style) :=
  ⟨rfl, fun _ ↦ rfl, fun _ _ _ ↦ rfl⟩

theorem separated_compactEntries :
    Separated [','] (fun e ↦ encodeKey style e.1 ++ ':' :: compactWith style e.2)
      (compactEntries style) :=
  ⟨rfl, fun _ ↦ rfl, fun _ _ _ ↦ rfl⟩

theorem separated_indentedItems :
    Separated (',' :: newLine level) (indentedAt style level) (indentedItems style level) :=
  ⟨rfl, fun _ ↦ rfl, fun _ _ _ ↦ by simp [indentedItems]⟩

theorem separated_indentedEntries :
    Separated (',' :: newLine level)
      (fun e ↦ encodeKey style e.1 ++ ':' :: ' ' :: indentedAt style level e.2)
      (indentedEntries style level) :=
  ⟨rfl, fun _ ↦ rfl, fun _ _ _ ↦ by simp [indentedEntries]⟩

theorem isSpace_of_mem_newLine {c : Char} (h : c ∈ newLine level) : isSpace c = true := by
  rcases List.mem_cons.mp h with rfl | h
  · rfl
  · obtain rfl := List.eq_of_mem_replicate h
    rfl

theorem spells_list {front back s : Text} {ts : List Token} (hfront : ∀ c ∈ front, isSpace c = true)
    (hback : ∀ c ∈ back, isSpace c = true) (h : Spells limit s ts) :
    Spells limit ('[' :: (front ++ (s ++ (back ++ [']']))))
      (.openBracket :: (ts ++ [.closeBracket])) :=
  h.enclosed (by decide) (fun _ ↦ rfl) (by decide) (fun _ ↦ rfl) (ends_cons.mpr (by decide)) hfront
    hback

theorem spells_map {front back s : Text} {ts : List Token} (hfront : ∀ c ∈ front, isSpace c = true)
    (hback : ∀ c ∈ back, isSpace c = true) (h : Spells limit s ts) :
    Spells limit ('\x7b' :: (front ++ (s ++ (back ++ ['\x7d']))))
      (.openBrace :: (ts ++ [.closeBrace])) :=
  h.enclosed (by decide) (fun _ ↦ rfl) (by decide) (fun _ ↦ rfl) (ends_cons.mpr (by decide)) hfront
    hback

section

variable (hplain : ∀ c, style.plain c = true → 0x20 ≤ c.toNat)

include hplain

theorem spells_entry (key : Text) {gap written : Text} (hgap : ∀ c ∈ gap, isSpace c = true)
    (h : Spells limit written (tokensOf v)) :
    Spells limit (encodeKey style (.text key) ++ ':' :: (gap ++ written))
      (.scalar (.text key) :: .colon :: tokensOf v) := by
  have hcolon : Spells limit (':' :: (gap ++ written)) (.colon :: tokensOf v) :=
    .mark (by decide) (fun _ ↦ rfl) (h.skip hgap)
  exact (Spells.text hplain key).append hcolon fun _ _ ↦ ends_cons.mpr (by decide)

/-- On one line a value spells its tokens. -/
theorem Portable.spells_compactWith (h : Portable limit v) :
    Spells limit (compactWith style v) (tokensOf v) := by
  induction h with
  | null => exact spells_null
  | bool b => exact spells_bool b
  | int n h => exact spells_int n h
  | text s => exact .text hplain s
  | list items _ ih =>
    have hitems : Spells limit (compactItems style items) (itemTokens items) :=
      separated_compactItems.spells separated_itemTokens (by simp) ih
    exact spells_list (List.forall_mem_nil _) (List.forall_mem_nil _) hitems
  | record entries _ _ ih =>
    refine spells_map (List.forall_mem_nil _) (List.forall_mem_nil _) ?_
    refine separated_compactEntries.spells separated_entryTokens (by simp) ?_
    refine List.forall_mem_map.mpr fun entry hentry ↦ ?_
    exact spells_entry hplain entry.1 (List.forall_mem_nil _) (ih entry hentry)

/-- And so it does on many lines, from any level of indentation. -/
theorem Portable.spells_indentedAt (h : Portable limit v) (level : Nat) :
    Spells limit (indentedAt style level v) (tokensOf v) := by
  have hline : ∀ level, ∀ c ∈ newLine level, isSpace c = true := fun _ _ ↦ isSpace_of_mem_newLine
  induction h generalizing level with
  | null => exact spells_null
  | bool b => exact spells_bool b
  | int n h => exact spells_int n h
  | text s => exact .text hplain s
  | list items _ ih =>
    have hitems : Spells limit (indentedItems style (level + 1) items) (itemTokens items) :=
      separated_indentedItems.spells separated_itemTokens (hline _) fun v hv ↦ ih v hv (level + 1)
    cases items with
    | nil => exact spells_list (List.forall_mem_nil _) (List.forall_mem_nil _) .nil
    | cons v rest =>
      simpa [indentedAt, tokensOf] using spells_list (hline (level + 1)) (hline level) hitems
  | record entries _ _ ih =>
    have hentries : Spells limit
        (indentedEntries style (level + 1) (entries.map fun e ↦ (.text e.1, e.2)))
        (entryTokens (entries.map fun e ↦ (.text e.1, e.2))) := by
      refine separated_indentedEntries.spells separated_entryTokens (hline _) ?_
      refine List.forall_mem_map.mpr fun entry hentry ↦ ?_
      have hgap : ∀ c ∈ [' '], isSpace c = true := by decide
      exact spells_entry hplain entry.1 hgap (ih entry hentry (level + 1))
    cases entries with
    | nil => exact spells_map (List.forall_mem_nil _) (List.forall_mem_nil _) .nil
    | cons entry rest =>
      simpa [Value.record, indentedAt, tokensOf] using
        spells_map (hline (level + 1)) (hline level) hentries

end

/-! ### Reading the tokens of a value -/

/-- The tokens of the value are read as the value, whatever is open and whatever follows. -/
def Reads (v : Value) : Prop :=
  ∀ outer rest, run (.value outer) (tokensOf v ++ rest) = run (complete v outer) rest

theorem run_itemTokens {items : List Value} (h : ∀ v ∈ items, Reads v) (hne : items ≠ [])
    (read : List Value) (outer : List Frame) (rest : List Token) :
    run (.value (.list read :: outer)) (itemTokens items ++ .closeBracket :: rest) =
      run (complete (.list (read.reverse ++ items)) outer) rest := by
  induction items generalizing read with
  | nil => exact absurd rfl hne
  | cons v items ih =>
    have hv : Reads v := h v List.mem_cons_self
    cases items with
    | nil =>
      show run _ (tokensOf v ++ _) = _
      rw [hv]
      simp [complete, run, step]
    | cons next items =>
      have hitems := ih (fun w hw ↦ h w (List.mem_cons_of_mem v hw)) (by simp) (v :: read)
      rw [separated_itemTokens.more, List.append_assoc, hv]
      simpa [complete, run, step] using hitems

theorem run_entryTokens {entries : List (Text × Value)} (h : ∀ entry ∈ entries, Reads entry.2)
    (hne : entries ≠ []) (read : List (Scalar × Value)) (outer : List Frame) (rest : List Token) :
    run (.key read outer)
        (entryTokens (entries.map fun e ↦ (.text e.1, e.2)) ++ .closeBrace :: rest) =
      run (complete (.map (Value.ofEntries
        (read.reverse ++ entries.map fun e ↦ (.text e.1, e.2)))) outer) rest := by
  induction entries generalizing read with
  | nil => exact absurd rfl hne
  | cons entry entries ih =>
    have hv : Reads entry.2 := h entry List.mem_cons_self
    cases entries with
    | nil =>
      simp only [List.map_cons, List.map_nil, separated_entryTokens.single, List.cons_append, run,
        step]
      rw [hv]
      simp [complete, run, step]
    | cons next entries =>
      have hentries := ih (fun e he ↦ h e (List.mem_cons_of_mem entry he)) (by simp)
        ((.text entry.1, entry.2) :: read)
      simp only [List.map_cons, separated_entryTokens.more, List.cons_append, List.append_assoc,
        run, step]
      rw [hv]
      simpa [complete, run, step] using hentries

/-- No value begins with the end of a list. -/
theorem exists_tokensOf_eq (v : Value) : ∃ t ts, tokensOf v = t :: ts ∧ t ≠ .closeBracket := by
  cases v <;> exact ⟨_, _, rfl, nofun⟩

theorem run_firstItem {t : Token} (ht : t ≠ .closeBracket) (outer : List Frame) (ts : List Token) :
    run (.firstItem outer) (t :: ts) = run (.value (.list [] :: outer)) (t :: ts) := by
  cases t <;> first | rfl | exact absurd rfl ht

theorem reads_list {items : List Value} (h : ∀ v ∈ items, Reads v) : Reads (.list items) := by
  intro outer rest
  cases items with
  | nil => rfl
  | cons v items =>
    have hitems := run_itemTokens h (by simp) [] outer rest
    obtain ⟨t, ts, heq, ht⟩ : ∃ t ts, itemTokens (v :: items) = t :: ts ∧ t ≠ .closeBracket := by
      obtain ⟨t, ts, heq, ht⟩ := exists_tokensOf_eq v
      cases items with
      | nil => exact ⟨t, ts, heq, ht⟩
      | cons next items => exact ⟨t, _, by rw [separated_itemTokens.more, heq]; rfl, ht⟩
    -- Behind the bracket the reader also takes the end of the list, which no item begins with.
    rw [heq, List.cons_append, ← run_firstItem ht, ← List.cons_append, ← heq] at hitems
    simpa [tokensOf, run, step, begin] using hitems

/-- A key that is new comes behind all others. -/
theorem insert_of_new {key : Text} {entries : List (Scalar × Value)}
    (h : ∀ entry ∈ entries, entry.1.sameKey (.text key) = false) :
    Value.insert (.text key) v entries = entries ++ [(.text key, v)] := by
  induction entries with
  | nil => rfl
  | cons entry entries ih =>
    have hhead : entry.1.sameKey (.text key) = false := h entry List.mem_cons_self
    rw [Value.insert, hhead, ih fun e he ↦ h e (List.mem_cons_of_mem entry he)]
    rfl

/-- Entries with different keys stay as they were written. -/
theorem ofEntries_record {entries : List (Text × Value)} (h : (entries.map (·.1)).Nodup) :
    Value.ofEntries (entries.map fun e ↦ (.text e.1, e.2)) =
      entries.map fun e ↦ (.text e.1, e.2) := by
  induction entries using List.reverseRecOn with
  | nil => rfl
  | append_singleton entries entry ih =>
    rw [List.map_append, List.nodup_append] at h
    obtain ⟨hentries, -, hnew⟩ := h
    rw [Value.ofEntries] at ih ⊢
    rw [List.map_append, List.foldl_append, ih hentries]
    refine insert_of_new (List.forall_mem_map.mpr fun e he ↦ ?_)
    have hne : e.1 ≠ entry.1 := hnew e.1 (List.mem_map_of_mem he) entry.1 (by simp)
    simp [Scalar.sameKey, hne]

theorem reads_record {entries : List (Text × Value)} (hkeys : (entries.map (·.1)).Nodup)
    (h : ∀ entry ∈ entries, Reads entry.2) : Reads (.record entries) := by
  intro outer rest
  cases entries with
  | nil => rfl
  | cons entry entries =>
    have hentries := run_entryTokens h (by simp) [] outer rest
    rw [List.reverse_nil, List.nil_append, ofEntries_record hkeys] at hentries
    obtain ⟨ts, heq⟩ : ∃ ts, entryTokens ((entry :: entries).map fun e ↦ (.text e.1, e.2)) =
        .scalar (.text entry.1) :: ts := by
      cases entries <;> exact ⟨_, rfl⟩
    simp only [Value.record, tokensOf, heq, List.cons_append, List.append_assoc, run, step, begin]
      at hentries ⊢
    exact hentries

theorem Portable.reads (h : Portable limit v) : Reads v := by
  induction h with
  | null | bool | int | text => exact fun outer rest ↦ rfl
  | list items _ ih => exact reads_list ih
  | record entries hkeys _ ih => exact reads_record hkeys ih

/-! ### Whole texts -/

/-- A text that spells the tokens of a value is read as the value. -/
theorem parseWithin_of_spells {s : Text} (hs : Spells limit s (tokensOf v)) (h : Reads v) :
    parseWithin limit s = .ok v := by
  have htokens : tokens? limit s = some (tokensOf v) := by
    simpa using hs [] [] ends_nil (by simp [tokens?])
  have hrun : run (.value []) (tokensOf v) = .ok v := by
    simpa [complete, run] using h [] []
  rw [parseWithin, htokens]
  exact hrun

/-- **A value is read as it was written without space.** -/
theorem parseWithin_compact (h : Portable limit v) : parseWithin limit (compact v) = .ok v :=
  parseWithin_of_spells (h.spells_compactWith fun _ hc ↦ by simpa [wireStyle, isPlain] using hc)
    h.reads

theorem le_toNat_of_isPlainAscii {c : Char} (h : isPlainAscii c = true) : 0x20 ≤ c.toNat := by
  simp only [isPlainAscii, Bool.and_eq_true, decide_eq_true_eq] at h
  exact h.1

/-- **A value is read as it was written on lines of its own**, with a line feed at the end. -/
theorem parseWithin_indented (h : Portable limit v) :
    parseWithin limit (indented v ++ ['\n']) = .ok v := by
  refine parseWithin_of_spells ?_ h.reads
  have hvalue : Spells limit (indented v) (tokensOf v) :=
    h.spells_indentedAt (fun _ ↦ le_toNat_of_isPlainAscii) 0
  have hbreak : ∀ c ∈ ['\n'], isSpace c = true := by decide
  have hline : Spells limit ['\n'] [] := Spells.skip hbreak .nil
  simpa using hvalue.append hline fun rest _ ↦ ends_cons.mpr (by decide)

/-! ### Carriage returns -/

theorem Separated.mem {α β : Type} {separator : List β} {one : α → List β} {many : List α → List β}
    {xs : List α} {b : β} (h : Separated separator one many) (hb : b ∈ many xs) :
    b ∈ separator ∨ ∃ a ∈ xs, b ∈ one a := by
  induction xs with
  | nil =>
    rw [h.nil] at hb
    cases hb
  | cons a xs ih =>
    cases xs with
    | nil =>
      rw [h.single] at hb
      exact .inr ⟨a, List.mem_cons_self, hb⟩
    | cons next xs =>
      rw [h.more, List.mem_append, List.mem_append] at hb
      rcases hb with hb | hb | hb
      · exact .inr ⟨a, List.mem_cons_self, hb⟩
      · exact .inl hb
      · exact (ih hb).imp_right fun ⟨a', ha', hb'⟩ ↦ ⟨a', List.mem_cons_of_mem a ha', hb'⟩

theorem return_not_mem_newLine : '\r' ∉ newLine level := by
  intro h
  rcases List.mem_cons.mp h with h | h
  · cases h
  · cases List.eq_of_mem_replicate h

/-- **A value is written on lines that end in line feeds only.** -/
theorem Portable.return_not_mem_indentedAt (h : Portable limit v) (level : Nat) :
    '\r' ∉ indentedAt recordStyle level v := by
  have hplain : ∀ c, recordStyle.plain c = true → 0x20 ≤ c.toNat :=
    fun _ ↦ le_toNat_of_isPlainAscii
  induction h generalizing level with
  | null => exact (by decide : '\r' ∉ "null".toList)
  | bool b =>
    have hwords : ∀ b : Bool, '\r' ∉ (if b then "true".toList else "false".toList) := by decide
    exact hwords b
  | int n => exact not_mem_toString rfl (by decide) n
  | text s => exact return_not_mem_encodeString hplain s
  | list items _ ih =>
    cases items with
    | nil => exact (by decide : '\r' ∉ ['[', ']'])
    | cons v rest =>
      have hitems : '\r' ∉ indentedItems recordStyle (level + 1) (v :: rest) := fun h ↦ by
        rcases separated_indentedItems.mem h with h | ⟨v', hv', h⟩
        · exact return_not_mem_newLine ((List.mem_cons.mp h).resolve_left (by decide))
        · exact ih v' hv' (level + 1) h
      simp [indentedAt, return_not_mem_newLine, hitems]
  | record entries _ _ ih =>
    cases entries with
    | nil => exact (by decide : '\r' ∉ ['\x7b', '\x7d'])
    | cons entry rest =>
      have hentries : '\r' ∉ indentedEntries recordStyle (level + 1)
          ((entry :: rest).map fun e ↦ (.text e.1, e.2)) := fun h ↦ by
        rcases separated_indentedEntries.mem h with h | ⟨e, he, h⟩
        · exact return_not_mem_newLine ((List.mem_cons.mp h).resolve_left (by decide))
        · obtain ⟨e', he', rfl⟩ := List.mem_map.mp he
          rcases List.mem_append.mp h with h | h
          · exact return_not_mem_encodeString hplain _ h
          · exact ih e' he' (level + 1) (by simpa using h)
      simp only [List.map_cons] at hentries
      simp [Value.record, indentedAt, return_not_mem_newLine, hentries]

end

end Json

end YulPlus
