import YulPlus.Proofs.Source.Placement

/-!
# Reading a part of a source

What the lexer makes of a part of a source depends on this part alone, up to the place that it is
read at.

* In front of a token, only the first character behind matters: `Tokenized.exists_front` cuts a
  source in front of a token, and another text with the same first character may be put in the place
  of the rest.
* Behind a place, only the offset matters: `Token.rebase d` counts the offsets of a token from `d`
  on, and forgets its line and column, and `Tokenized.rebase_eq` is that a text has the same rebased
  tokens wherever it is read.
* Some texts keep what stands behind them apart: `Separates`.

`Text.slice_slice` is the matching fact about characters. -/

namespace YulPlus

open Text

/-- The token with its offsets counted from `d` on, and with no line and no column. -/
def Token.rebase (d : Nat) (t : Token) : Token :=
  ⟨t.kind, t.value, ⟨0, 0, t.start.offset - d⟩, t.stop - d⟩

/-- The token stands between the offsets `d` and `n`. -/
structure Token.Between (d n : Nat) (t : Token) : Prop where
  le_start : d ≤ t.start.offset
  start_le : t.start.offset ≤ t.stop
  stop_le : t.stop ≤ n

/-- Whatever stands behind the text, no token reaches across its end. -/
def Separates (u : Text) : Prop :=
  ∀ ⦃p : Position⦄ ⦃s : Text⦄ ⦃ts : List Token⦄, Tokenized p (u ++ s) ts →
    ∃ front back, ts = front ++ back ∧ (∀ t ∈ front, t.stop ≤ (p.after u).offset) ∧
      Tokenized (p.after u) s back

section

variable {source s r u v : Text} {p q : Position} {ts us before more : List Token} {o : Token}

/-! ### The same text at another place -/

theorem head?_append_congr {front r' : Text} (h : r'.head? = r.head?) :
    (front ++ r').head? = (front ++ r).head? := by
  cases front with
  | nil => exact h
  | cons => rfl

/-- **A source is cut in front of a token.** The tokens before it are those of every text that
begins in the same way and goes on with the same character. -/
theorem Tokenized.exists_front (h : Tokenized p s (before ++ o :: more)) :
    ∃ front r, s = front ++ r ∧ o.start = p.after front ∧ Tokenized o.start r (o :: more) ∧
      ∀ r' ts, r'.head? = r.head? → Tokenized o.start r' ts →
        Tokenized p (front ++ r') (before ++ ts) := by
  generalize hall : before ++ o :: more = all at h
  induction h generalizing before with
  | nil p =>
    obtain ⟨rfl, hlast⟩ := List.append_eq_singleton_iff.1 hall |>.resolve_right (by simp)
    obtain ⟨rfl, rfl⟩ := List.cons.inj hlast
    exact ⟨[], [], rfl, rfl, .nil p, fun r' ts _ hts ↦ hts⟩
  | @cons p l u r ts hu hr ih =>
    have hlater : ∀ {before}, before ++ o :: more = ts →
        ∃ front r', u ++ r = front ++ r' ∧ o.start = p.after front ∧
          Tokenized o.start r' (o :: more) ∧ ∀ r'' us, r''.head? = r'.head? →
            Tokenized o.start r'' us →
              Tokenized p (front ++ r'') (l.tokensAt p u ++ (before ++ us)) := by
      intro before hbefore
      obtain ⟨front, r', rfl, hstart, hrest, hreplace⟩ := ih hbefore
      refine ⟨u ++ front, r', by simp, by rw [hstart, Position.after_append], hrest, ?_⟩
      intro r'' us hhead hus
      rw [List.append_assoc]
      exact .cons (hu.of_head? (head?_append_congr hhead)) (hreplace r'' us hhead hus)
    cases l with
    | gap => exact hlater hall
    | token k v =>
      cases before with
      | nil =>
        obtain ⟨rfl, rfl⟩ := List.cons.inj hall
        exact ⟨[], u ++ r, rfl, rfl, .cons hu hr, fun r' ts _ hts ↦ hts⟩
      | cons b before =>
        obtain ⟨rfl, htail⟩ := List.cons.inj hall
        exact hlater htail

/-- A source is cut in front of a token at the offset of the token. -/
theorem Tokenized.cut {u v : Text} (h : Tokenized p (u ++ v) (before ++ o :: more))
    (ho : o.start.offset = p.offset + u.length) :
    o.start = p.after u ∧ Tokenized o.start v (o :: more) ∧
      ∀ v' ts, v'.head? = v.head? → Tokenized o.start v' ts →
        Tokenized p (u ++ v') (before ++ ts) := by
  obtain ⟨front, r, heq, hstart, hrest, hreplace⟩ := h.exists_front
  have hlength : front.length = u.length := by
    rw [hstart, Position.after_offset] at ho
    omega
  obtain ⟨rfl, rfl⟩ := List.append_inj heq hlength.symm
  exact ⟨hstart, hrest, hreplace⟩

/-- The lexeme at the beginning of a text is the first that is read. -/
theorem Tokenized.exists_rest {l : Lexeme} {u : Text} (hu : Spelling l u r)
    (h : Tokenized p (u ++ r) ts) :
    ∃ us, ts = l.tokensAt p u ++ us ∧ Tokenized (p.after u) r us := by
  have heq := h.tokenizeFrom_eq
  rw [tokenizeFrom_append hu] at heq
  cases hrest : tokenizeFrom (p.after u) r with
  | error e =>
    rw [hrest] at heq
    cases heq
  | ok us =>
    rw [hrest] at heq
    exact ⟨us, (Except.ok.inj heq).symm, tokenized_of_tokenizeFrom hrest⟩

theorem Lexeme.places_of_mem_tokensAt {l : Lexeme} {t : Token} (h : t ∈ l.tokensAt p u) :
    t.start = p ∧ t.stop = (p.after u).offset := by
  cases l with
  | gap => cases h
  | token =>
    obtain rfl := List.mem_singleton.1 h
    exact ⟨rfl, rfl⟩

/-- No token of a text begins in front of it. -/
theorem Tokenized.le_start (h : Tokenized p s ts) : ∀ t ∈ ts, p.offset ≤ t.start.offset := by
  induction h with
  | nil p => simp [Token.endOfText]
  | @cons p l u r ts _ _ ih =>
    intro t ht
    rcases List.mem_append.1 ht with ht | ht
    · rw [(Lexeme.places_of_mem_tokensAt ht).1]
    · have hle := ih t ht
      rw [Position.after_offset] at hle
      omega

/-- Where the tokens of a placed list stand. -/
theorem Placed.between {m n : Nat} (h : Placed source m ts) (hn : stopFrom m ts ≤ n) :
    ∀ t ∈ ts, t.Between m n := by
  intro t ht
  obtain ⟨a, ha, hstands, hstop⟩ := h.exists_standsAfter ht
  have hstart := hstands.le_start
  have hlt := hstands.start_lt_stop
  exact ⟨by omega, by omega, by omega⟩

theorem Tokenized.start_lt_stop (h : Tokenized p s ts) :
    ∀ t ∈ ts, t.kind ≠ .endOfText → t.start.offset < t.stop := by
  induction h with
  | nil p =>
    intro t ht hkind
    obtain rfl := List.mem_singleton.1 ht
    exact absurd rfl hkind
  | @cons p l u r ts hu _ ih =>
    intro t ht hkind
    rcases List.mem_append.1 ht with ht | ht
    · obtain ⟨hstart, hstop⟩ := Lexeme.places_of_mem_tokensAt ht
      have hlength := List.length_pos_iff.2 hu.text_ne_nil
      rw [hstart, hstop, Position.after_offset]
      omega
    · exact ih t ht hkind

/-! ### Texts that separate -/

/-- A lexeme in front of a text that separates. -/
theorem Separates.cons {l : Lexeme} (hu : ∀ s, Spelling l u (v ++ s)) (hv : Separates v) :
    Separates (u ++ v) := by
  intro p s ts h
  rw [List.append_assoc] at h
  obtain ⟨us, rfl, hus⟩ := h.exists_rest (hu s)
  obtain ⟨front, back, rfl, hfront, hback⟩ := hv hus
  rw [← Position.after_append] at hfront hback
  refine ⟨l.tokensAt p u ++ front, back, by simp, fun t ht ↦ ?_, hback⟩
  rcases List.mem_append.1 ht with ht | ht
  · rw [(Lexeme.places_of_mem_tokensAt ht).2]
    simp only [Position.after_offset, List.length_append]
    omega
  · exact hfront t ht

theorem separates_nil : Separates [] :=
  fun _ _ ts h ↦ ⟨[], ts, rfl, List.forall_mem_nil _, h⟩

/-- A lexeme that may stand in front of everything. -/
theorem separates_of_spelling {l : Lexeme} (hu : ∀ s, Spelling l u s) : Separates u := by
  have h := Separates.cons (fun s ↦ hu s) separates_nil
  rwa [List.append_nil] at h

theorem Separates.append (hu : Separates u) (hv : Separates v) : Separates (u ++ v) := by
  intro p s ts h
  rw [List.append_assoc] at h
  obtain ⟨front, us, rfl, hfront, hus⟩ := hu h
  obtain ⟨front', back, rfl, hfront', hback⟩ := hv hus
  rw [← Position.after_append] at hfront' hback
  refine ⟨front ++ front', back, by simp, fun t ht ↦ ?_, hback⟩
  rcases List.mem_append.1 ht with ht | ht
  · have hle := hfront t ht
    simp only [Position.after_offset, List.length_append] at hle ⊢
    omega
  · exact hfront' t ht

/-- **A line feed separates**: a text that can be read, with a line feed behind it. -/
theorem Lexes.separates {ws : List (TokenKind × Text)} (h : Lexes u ws) :
    Separates (u ++ ['\n']) := by
  induction h with
  | nil => exact separates_of_spelling fun _ ↦ .layout (by decide)
  | cons hu _ ih =>
    have hfeed : ∀ s, Spelling _ _ (_ ++ ['\n'] ++ s) := fun s ↦ by
      rw [List.append_assoc]
      exact hu.append_lineFeed
    rw [List.append_assoc]
    exact .cons hfeed ih

end

end YulPlus
