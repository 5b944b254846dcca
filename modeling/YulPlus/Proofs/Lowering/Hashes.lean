import Mathlib.Tactic.Tauto
import YulPlus.Lowering.Interface

/-!
# Hash literals and the interface

The interface of a source is collected in one pass, each literal once, and later every literal is
looked up by the characters that it was read from. `Token.HasEntry` and `Token.hash?` say what a
literal stands for without either: the signature that is written in it is parsed for the kind of the
literal. The interface exists exactly when every literal has an entry (`exists_ofTokens_iff`), and a
lookup gives the hash of the literal (`hash?_eq`).

The pass keeps one invariant, `Interface.Collects`: the entries are those of the tokens seen so far.
Looking up by characters is right since the characters of a literal determine its kind and its value
(`Token.eq_of_text_eq`).
-/

namespace YulPlus

open Text

namespace Token

/-- The entry of a hash literal: its signature is that of a function or of an event. -/
inductive HasEntry (t : Token) : HashLiteral → Prop
  | selector {s : Signature} (ht : t.kind = .selector)
      (hs : Signature.parse Signature.functionKind t.value = .ok s) :
      HasEntry t ⟨t.text, s.name, s.canonical, s.selector⟩
  | topic {s : Signature} (ht : t.kind = .topic)
      (hs : Signature.parse Signature.eventKind t.value = .ok s) :
      HasEntry t ⟨t.text, s.name, s.canonical, s.topic⟩

/-- The hash that a literal stands for: the selector of a function, the topic of an event. -/
def hash? (t : Token) : Option Text :=
  match t.kind with
  | .selector => (Signature.parse Signature.functionKind t.value).toOption.map Signature.selector
  | .topic => (Signature.parse Signature.eventKind t.value).toOption.map Signature.topic
  | _ => none

variable {t u : Token} {l l' : HashLiteral}

theorem HasEntry.isHash (h : t.HasEntry l) : t.kind.isHash = true := by
  cases h with
  | selector ht | topic ht => rw [ht]; rfl

theorem HasEntry.hash?_eq (h : t.HasEntry l) : t.hash? = some l.hash := by
  cases h with
  | selector ht hs | topic ht hs =>
    rw [hash?, ht]
    simp [hs, Except.toOption]

theorem isHash_of_hash?_eq {hash : Text} (h : t.hash? = some hash) : t.kind.isHash = true := by
  unfold hash? at h
  split at h
  · simp [TokenKind.isHash, *]
  · simp [TokenKind.isHash, *]
  · cases h

theorem HasEntry.source_eq (h : t.HasEntry l) : l.source = t.text := by
  cases h <;> rfl

/-- The characters of a literal determine its kind and its value. -/
theorem eq_of_text_eq (ht : t.kind.isHash = true) (hu : u.kind.isHash = true)
    (h : t.text = u.text) : t.kind = u.kind ∧ t.value = u.value := by
  simp only [TokenKind.isHash, Bool.or_eq_true, decide_eq_true_eq] at ht hu
  rcases ht with ht | ht <;> rcases hu with hu | hu <;>
    simp_all [Token.text, TokenKind.frame?]

theorem HasEntry.of_text_eq (h : u.HasEntry l) (ht : t.kind.isHash = true)
    (htext : t.text = u.text) : t.HasEntry l := by
  obtain ⟨hkind, hvalue⟩ := eq_of_text_eq ht h.isHash htext
  cases h with
  | selector hu hs =>
    rw [← htext]
    exact .selector (hkind.trans hu) (hvalue.symm ▸ hs)
  | topic hu hs =>
    rw [← htext]
    exact .topic (hkind.trans hu) (hvalue.symm ▸ hs)

end Token

namespace Interface

variable {interface interface' : Interface} {t : Token} {tokens seen : List Token}

theorem find?_isSome_iff {source : Text} :
    (interface.find? source).isSome ↔
      ∃ l ∈ interface.functions ++ interface.events, l.source = source := by
  rw [find?, List.find?_isSome]
  simp only [decide_eq_true_eq]

/-- The entries are those of the hash literals among the tokens that were seen. -/
structure Collects (interface : Interface) (seen : List Token) : Prop where
  found : ∀ t ∈ seen, t.kind.isHash = true → (interface.find? t.text).isSome
  entry : ∀ l ∈ interface.functions ++ interface.events, ∃ t ∈ seen, t.HasEntry l

/-- **Taking in a token**: it is no literal or a known one, or it becomes the last entry of its
list. -/
theorem add_eq_ok (h : interface.add t = .ok interface') :
    ((t.kind.isHash = true → (interface.find? t.text).isSome) ∧ interface' = interface) ∨
      ∃ l, t.HasEntry l ∧ interface.find? t.text = none ∧
        (t.kind = .selector ∧
            interface' = { interface with functions := interface.functions ++ [l] } ∨
          t.kind = .topic ∧ interface' = { interface with events := interface.events ++ [l] }) := by
  unfold add at h
  split at h
  · rename_i hknown
    cases h
    exact .inl ⟨by grind, rfl⟩
  · rename_i hnew
    have hnone : interface.find? t.text = none := by
      rw [← Option.not_isSome_iff_eq_none]
      exact fun hsome ↦ hnew (by simp [hsome])
    split at h <;> rename_i hkind <;> split at h <;> cases h <;> rename_i s hs
    · exact .inr ⟨_, .selector hkind hs, hnone, .inl ⟨hkind, rfl⟩⟩
    · have hhash : t.kind.isHash = true := by grind
      have htopic : t.kind = .topic := by simpa [TokenKind.isHash, hkind] using hhash
      exact .inr ⟨_, .topic htopic hs, hnone, .inr ⟨htopic, rfl⟩⟩

theorem exists_add (h : t.kind.isHash = true → ∃ l, t.HasEntry l) :
    ∃ interface', interface.add t = .ok interface' := by
  unfold add
  split
  · exact ⟨interface, rfl⟩
  · rename_i hnew
    obtain ⟨l, hl⟩ := h (by grind)
    cases hl with
    | selector ht hs =>
      rw [if_pos ht, hs]
      exact ⟨_, rfl⟩
    | topic ht hs =>
      rw [if_neg (by simp [ht]), hs]
      exact ⟨_, rfl⟩

theorem Collects.empty : Collects {} [] :=
  ⟨by simp, by simp⟩

/-- **What one step keeps.** -/
theorem Collects.add (hinv : interface.Collects seen) (h : interface.add t = .ok interface') :
    interface'.Collects (seen ++ [t]) := by
  -- whatever has been found is found among more entries
  have hkeep : ∀ {known : List HashLiteral},
      (∀ l, l ∈ interface.functions ++ interface.events → l ∈ known) →
      ∀ u ∈ seen, u.kind.isHash = true → ∃ l ∈ known, l.source = u.text := by
    intro known hknown u hu hhash
    obtain ⟨l, hl, hsource⟩ := find?_isSome_iff.1 (hinv.found u hu hhash)
    exact ⟨l, hknown l hl, hsource⟩
  rcases add_eq_ok h with ⟨hknown, rfl⟩ | ⟨l, hl, -, hcases⟩
  · refine ⟨fun u hu hhash ↦ ?_, fun l hl ↦ ?_⟩
    · rcases List.mem_append.1 hu with hu | hu
      · exact hinv.found u hu hhash
      · obtain rfl := List.mem_singleton.1 hu
        exact hknown hhash
    · obtain ⟨u, hu, hentry⟩ := hinv.entry l hl
      exact ⟨u, by simp [hu], hentry⟩
  · have hmem : ∀ k, k ∈ interface'.functions ++ interface'.events ↔
        k ∈ interface.functions ++ interface.events ∨ k = l := by
      rcases hcases with ⟨-, rfl⟩ | ⟨-, rfl⟩
      · intro k
        simp only [List.mem_append, List.mem_singleton]
        tauto
      · intro k
        simp only [List.mem_append, List.mem_singleton]
        tauto
    refine ⟨fun u hu hhash ↦ find?_isSome_iff.2 ?_, fun k hk ↦ ?_⟩
    · rcases List.mem_append.1 hu with hu | hu
      · exact hkeep (fun k hk ↦ (hmem k).2 (.inl hk)) u hu hhash
      · obtain rfl := List.mem_singleton.1 hu
        exact ⟨l, (hmem l).2 (.inr rfl), hl.source_eq⟩
    · rcases (hmem k).1 hk with hk | rfl
      · obtain ⟨u, hu, hentry⟩ := hinv.entry k hk
        exact ⟨u, by simp [hu], hentry⟩
      · exact ⟨t, by simp, hl⟩

/-- **What the whole pass keeps.** -/
theorem Collects.foldlM (hinv : interface.Collects seen)
    (h : tokens.foldlM Interface.add interface = .ok interface') :
    interface'.Collects (seen ++ tokens) := by
  induction tokens generalizing interface seen with
  | nil =>
    cases h
    simpa using hinv
  | cons t tokens ih =>
    rw [List.foldlM_cons] at h
    cases hadd : interface.add t with
    | error e =>
      rw [hadd] at h
      cases h
    | ok next =>
      rw [hadd] at h
      have := ih (hinv.add hadd) h
      simpa using this

theorem Collects.of_ofTokens (h : ofTokens tokens = .ok interface) : interface.Collects tokens :=
  Collects.empty.foldlM h

/-- A literal among the tokens that were seen, and the entry that it is found under. -/
theorem Collects.find?_eq (hinv : interface.Collects seen) (ht : t ∈ seen)
    (hhash : t.kind.isHash = true) : ∃ l, interface.find? t.text = some l ∧ t.HasEntry l := by
  obtain ⟨l, hl⟩ := Option.isSome_iff_exists.1 (hinv.found t ht hhash)
  obtain ⟨u, -, hentry⟩ := hinv.entry l (List.mem_of_find?_eq_some hl)
  have hsource : l.source = t.text := by simpa using List.find?_some hl
  exact ⟨l, hl, hentry.of_text_eq hhash (hsource.symm.trans hentry.source_eq)⟩

/-- **The interface exists** when every hash literal has an entry. -/
theorem exists_ofTokens_iff : (∃ interface, ofTokens tokens = .ok interface) ↔
    ∀ t ∈ tokens, t.kind.isHash = true → ∃ l, t.HasEntry l := by
  constructor
  · rintro ⟨interface, h⟩ t ht hhash
    obtain ⟨l, -, hentry⟩ := (Collects.of_ofTokens h).find?_eq ht hhash
    exact ⟨l, hentry⟩
  · intro h
    unfold ofTokens
    generalize ({} : Interface) = interface
    induction tokens generalizing interface with
    | nil => exact ⟨interface, rfl⟩
    | cons t tokens ih =>
      obtain ⟨next, hadd⟩ := exists_add (h t (by simp))
      rw [List.foldlM_cons, hadd]
      exact ih (fun u hu ↦ h u (by simp [hu])) next

/-- **A lookup** of a token gives its hash, and of a token that is no literal nothing. -/
theorem hash?_eq (h : ofTokens tokens = .ok interface) (ht : t ∈ tokens) :
    interface.hash? t = t.hash? := by
  unfold hash?
  split
  · rename_i hhash
    obtain ⟨l, hl, hentry⟩ := (Collects.of_ofTokens h).find?_eq ht hhash
    rw [hl, hentry.hash?_eq, Option.map_some]
  · rename_i hhash
    cases hsome : t.hash? with
    | none => rfl
    | some hash => exact absurd (Token.isHash_of_hash?_eq hsome) hhash

/-- A hash literal of the tokens that the interface was made from is found in it. -/
theorem exists_hash? (h : ofTokens tokens = .ok interface) (ht : t ∈ tokens)
    (hhash : t.kind.isHash = true) : ∃ hash, interface.hash? t = some hash := by
  obtain ⟨l, hl, -⟩ := (Collects.of_ofTokens h).find?_eq ht hhash
  exact ⟨l.hash, by rw [hash?, if_pos hhash, hl, Option.map_some]⟩

/-- Without hash literals the interface is empty. -/
theorem ofTokens_eq_empty (h : ∀ t ∈ tokens, t.kind.isHash = false) : ofTokens tokens = .ok {} := by
  unfold ofTokens
  induction tokens with
  | nil => rfl
  | cons t tokens ih =>
    have hadd : add {} t = .ok {} := if_pos (by simp [h t (by simp)])
    rw [List.foldlM_cons, hadd]
    exact ih fun u hu ↦ h u (by simp [hu])

end Interface

end YulPlus
