import YulPlus.Proofs.Source.Tokenized

/-!
# Where the tokens stand

A token keeps the offsets of its first character and of the end, and edits are applied by these
offsets. `Placed source o ts` says that they are right: behind the offset `o` the tokens `ts` stand
one after the other in `source`, each spelled as its text, with nothing but a gap in front of each.
Everything that is known about the characters of a source is read off this relation, which holds of
every token list that the lexer returns (`exists_placed_of_tokenize`).

A `Gap` is closed: a line comment in it has its line feed. So a gap may be put in front of any text
(`Gap.lexes_append`), and what stands between two tokens is always a gap. Only behind the last token
may a line comment run to the end of the text.
-/

namespace YulPlus

open Text

namespace Text

/-- The characters of `s` from offset `a` up to offset `b`. -/
def slice (s : Text) (a b : Nat) : Text :=
  (s.take b).drop a

theorem slice_eq_take (s : Text) (a b : Nat) : slice s a b = (s.drop a).take (b - a) :=
  List.drop_take

theorem slice_append_drop {s : Text} {a b : Nat} (h : a ≤ b) :
    slice s a b ++ s.drop b = s.drop a := by
  have hb : s.drop b = (s.drop a).drop (b - a) := by
    rw [List.drop_drop, Nat.add_sub_cancel' h]
  rw [slice_eq_take, hb, List.take_append_drop]

theorem slice_append_slice {s : Text} {a b c : Nat} (hab : a ≤ b) (hbc : b ≤ c) :
    slice s a b ++ slice s b c = slice s a c := by
  have hb : s.drop b = (s.drop a).drop (b - a) := by
    rw [List.drop_drop, Nat.add_sub_cancel' hab]
  rw [slice_eq_take, slice_eq_take, slice_eq_take, hb, ← List.take_add]
  congr 1
  omega

theorem slice_self (s : Text) (a : Nat) : slice s a a = [] := by
  simp [slice_eq_take]

theorem length_slice {s : Text} {a b : Nat} (h : b ≤ s.length) : (slice s a b).length = b - a := by
  simp [slice_eq_take]
  omega

/-- A beginning of the rest of `s` is a slice. -/
theorem slice_of_drop_eq {s u r : Text} {a : Nat} (h : s.drop a = u ++ r) :
    slice s a (a + u.length) = u := by
  rw [slice_eq_take, h, Nat.add_sub_cancel_left, List.take_left]

theorem drop_of_drop_eq {s u r : Text} {a : Nat} (h : s.drop a = u ++ r) :
    s.drop (a + u.length) = r := by
  rw [← List.drop_drop, h, List.drop_left]

end Text

/-- Blank characters and closed comments. -/
inductive Gap : Text → Prop
  | nil : Gap []
  | layout {c : Char} {g : Text} (hc : isLayout c = true) (hg : Gap g) : Gap (c :: g)
  | lineComment {body g : Text} (hbody : '\n' ∉ body) (hg : Gap ('\n' :: g)) :
      Gap ('/' :: '/' :: body ++ '\n' :: g)
  | blockComment {body g : Text} (hbody : closeComment body = some (body, [])) (hg : Gap g) :
      Gap ('/' :: '*' :: body ++ g)

namespace Gap

variable {g s : Text} {ws : List (TokenKind × Text)}

/-- A gap in front of a text does not change its tokens. -/
theorem lexes_append (hg : Gap g) (hs : Lexes s ws) : Lexes (g ++ s) ws := by
  induction hg with
  | nil => exact hs
  | layout hc _ ih => exact .cons (.layout hc) ih
  | @lineComment body g hbody _ ih =>
    rw [List.append_assoc]
    exact .cons (.lineComment hbody fun c hc ↦ by cases hc; rfl) ih
  | @blockComment body g hbody _ ih =>
    rw [List.append_assoc]
    exact .cons (.blockComment hbody) ih

/-- A word may end in front of a gap. -/
theorem soft (hg : Gap g) : Soft g := by
  cases hg with
  | nil => exact soft_nil
  | @layout c g hc =>
    have hspell : Spelling .gap [c] g := .layout hc
    exact soft_cons_iff.2 (soft_cons_iff.1 hspell.soft_of_gap)
  | lineComment | blockComment => exact soft_cons_iff.2 (by decide)

/-- A lexeme that is no token may be put in front of a gap, if a line comment is followed by the
line feed that ends it. -/
theorem cons_spelling {u : Text} (hu : Spelling .gap u (g ++ s)) (hg : Gap g)
    (hs : ∃ c ∈ s.head?, c ≠ '\n') : Gap (u ++ g) := by
  generalize hl : Lexeme.gap = l at hu
  cases hu with
  | layout hc => exact .layout hc hg
  | lineComment hbody hr =>
    obtain ⟨c, hc, hne⟩ := hs
    cases g with
    | nil => exact absurd (hr c hc) hne
    | cons d g =>
      obtain rfl := hr d rfl
      exact .lineComment hbody hg
  | blockComment hbody => exact .blockComment hbody hg
  | _ => cases hl

end Gap

/-- The token `t` stands in `source` behind the offset `o`, with only a gap in between. -/
structure Token.StandsAfter (t : Token) (source : Text) (o : Nat) : Prop where
  le_start : o ≤ t.start.offset
  stop_eq : t.stop = t.start.offset + t.text.length
  stop_le : t.stop ≤ source.length
  slice_eq : slice source t.start.offset t.stop = t.text
  gap : Gap (slice source o t.start.offset)
  spelling : ∃ r, Spelling (.token t.kind t.value) t.text r

theorem Token.StandsAfter.start_lt_stop {source : Text} {t : Token} {o : Nat}
    (h : t.StandsAfter source o) : t.start.offset < t.stop := by
  obtain ⟨r, hr⟩ := h.spelling
  have := List.length_pos_iff.2 hr.text_ne_nil
  have := h.stop_eq
  omega

/-- Behind the offset `o` the tokens of the list stand one after the other in `source`. -/
inductive Placed (source : Text) : Nat → List Token → Prop
  | nil {o : Nat} (ho : o ≤ source.length) : Placed source o []
  | cons {o : Nat} {t : Token} {ts : List Token} (ht : t.StandsAfter source o)
      (hts : Placed source t.stop ts) : Placed source o (t :: ts)

/-- `t` closes the tokens of `source`, behind a gap that begins at `o` and may end in an open
line comment. -/
structure Token.Closes (t : Token) (source : Text) (o : Nat) : Prop where
  le_length : o ≤ source.length
  kind_eq : t.kind = .endOfText
  value_eq : t.value = []
  start_eq : t.start.offset = source.length
  stop_eq : t.stop = source.length
  lexes : Lexes (source.drop o) []

/-- The offset behind the last token of a list that stands behind `o`. -/
def stopFrom (o : Nat) (ts : List Token) : Nat :=
  (ts.getLast?.map (·.stop)).getD o

theorem stopFrom_cons (o : Nat) (t : Token) (ts : List Token) :
    stopFrom o (t :: ts) = stopFrom t.stop ts := by
  cases ts with
  | nil => rfl
  | cons t' ts => simp [stopFrom, List.getLast?_cons]

theorem stopFrom_append (o : Nat) (ts us : List Token) :
    stopFrom o (ts ++ us) = stopFrom (stopFrom o ts) us := by
  induction ts generalizing o with
  | nil => rfl
  | cons t ts ih => rw [List.cons_append, stopFrom_cons, stopFrom_cons, ih]

theorem stopFrom_cons_eq (o : Nat) (t : Token) (ts : List Token) :
    stopFrom o (t :: ts) = (ts.getLastD t).stop := by
  rw [stopFrom, List.getLast?_cons, List.getLastD_eq_getLast?]
  rfl

/-! ### The tokens that the lexer returns -/

theorem Token.StandsAfter.cons_spelling {source u : Text} {t : Token} {o : Nat}
    (h : t.StandsAfter source (o + u.length)) (hu : Spelling .gap u (source.drop (o + u.length)))
    (hdrop : source.drop o = u ++ source.drop (o + u.length)) : t.StandsAfter source o := by
  refine { h with le_start := by have := h.le_start; omega, gap := ?_ }
  obtain ⟨r, hr⟩ := h.spelling
  have hgap : slice source (o + u.length) t.start.offset ++ source.drop t.start.offset =
      source.drop (o + u.length) := slice_append_drop h.le_start
  have htext : source.drop t.start.offset = t.text ++ source.drop t.stop := by
    rw [← h.slice_eq, slice_append_drop (by rw [h.stop_eq]; omega)]
  have hsplit : slice source o t.start.offset =
      u ++ slice source (o + u.length) t.start.offset := by
    rw [← slice_append_slice (b := o + u.length) (by omega) h.le_start, slice_of_drop_eq hdrop]
  rw [hsplit]
  refine Gap.cons_spelling (hgap.symm ▸ hu) h.gap ?_
  obtain ⟨c, tail, hc⟩ := List.exists_cons_of_ne_nil hr.text_ne_nil
  refine ⟨c, by simp [htext, hc], ?_⟩
  exact hr.head?_ne_lineFeed c (by simp [hc])

/-- A token that is read at a place stands right there. -/
theorem Spelling.standsAfter {source v u r : Text} {k : TokenKind} {p : Position}
    (hu : Spelling (.token k v) u r) (hs : source.drop p.offset = u ++ r)
    (hp : p.offset ≤ source.length) :
    (⟨k, v, p, (p.after u).offset⟩ : Token).StandsAfter source p.offset := by
  have htext : (⟨k, v, p, (p.after u).offset⟩ : Token).text = u := hu.text_eq rfl rfl
  have hstop : (p.after u).offset = p.offset + u.length := p.after_offset u
  have hlen := congrArg List.length hs
  simp only [List.length_drop, List.length_append] at hlen
  exact
    { le_start := le_rfl
      stop_eq := by rw [htext]; exact hstop
      stop_le := by show (p.after u).offset ≤ _; omega
      slice_eq := by rw [htext]; exact hstop ▸ slice_of_drop_eq hs
      gap := by rw [slice_self]; exact .nil
      spelling := ⟨r, htext.symm ▸ hu⟩ }

theorem Tokenized.exists_placed {source : Text} {p : Position} {s : Text} {ts : List Token}
    (h : Tokenized p s ts) (hs : source.drop p.offset = s) (hp : p.offset ≤ source.length) :
    ∃ front last, ts = front ++ [last] ∧ Placed source p.offset front ∧
      last.Closes source (stopFrom p.offset front) := by
  induction h with
  | nil p =>
    have hlen : p.offset = source.length := by
      have := List.drop_eq_nil_iff.1 hs
      omega
    refine ⟨[], _, rfl, .nil hp, ⟨hp, rfl, rfl, hlen, hlen, ?_⟩⟩
    show Lexes (source.drop p.offset) []
    rw [hs]
    exact .nil
  | @cons p l u r ts hu _ ih =>
    have hdrop := drop_of_drop_eq hs
    have hlen := congrArg List.length hs
    simp only [List.length_drop, List.length_append] at hlen
    obtain ⟨front, last, rfl, hfront, hlast⟩ := ih (by rwa [Position.after_offset])
      (by rw [Position.after_offset]; omega)
    cases l with
    | token k v =>
      exact ⟨⟨k, v, p, (p.after u).offset⟩ :: front, last, rfl, .cons (hu.standsAfter hs hp) hfront,
        by rwa [stopFrom_cons]⟩
    | gap =>
      -- the gap becomes part of the one in front of the next token
      rw [Position.after_offset] at hfront hlast
      rw [← hdrop] at hu
      cases hfront with
      | nil =>
        refine ⟨[], last, rfl, .nil hp, { hlast with le_length := hp, lexes := ?_ }⟩
        show Lexes (source.drop p.offset) []
        rw [hs, ← hdrop]
        exact .cons hu hlast.lexes
      | @cons _ t ts ht hts =>
        refine ⟨t :: ts, last, rfl, .cons (ht.cons_spelling hu (hdrop ▸ hs)) hts, ?_⟩
        rw [stopFrom_cons] at hlast ⊢
        exact hlast

/-- **The tokens of a source stand in it**, one after the other and with only gaps in between; the
closing token stands behind them, at the end. -/
theorem exists_placed_of_tokenize {source : Text} {ts : List Token}
    (h : tokenize source = .ok ts) :
    ∃ front last, ts = front ++ [last] ∧ Placed source 0 front ∧
      last.Closes source (stopFrom 0 front) :=
  (tokenized_of_tokenizeFrom h).exists_placed rfl (Nat.zero_le _)

namespace Placed

variable {source : Text} {o : Nat} {ts us : List Token}

theorem le_length (h : Placed source o ts) : o ≤ source.length := by
  cases h with
  | nil ho => exact ho
  | cons ht =>
    have := ht.le_start
    have := ht.stop_eq
    have := ht.stop_le
    omega

/-- A placed list may be cut anywhere. -/
theorem append_iff : Placed source o (ts ++ us) ↔
    Placed source o ts ∧ Placed source (stopFrom o ts) us := by
  induction ts generalizing o with
  | nil => exact ⟨fun h ↦ ⟨.nil h.le_length, h⟩, fun h ↦ h.2⟩
  | cons t ts ih =>
    rw [List.cons_append, stopFrom_cons]
    constructor
    · rintro (_ | ⟨ht, hts⟩)
      obtain ⟨hfst, hsnd⟩ := ih.1 hts
      exact ⟨.cons ht hfst, hsnd⟩
    · rintro ⟨_ | ⟨ht, hts⟩, hus⟩
      exact .cons ht (ih.2 ⟨hts, hus⟩)

theorem le_stopFrom (h : Placed source o ts) : o ≤ stopFrom o ts := by
  induction h with
  | nil ho => exact le_rfl
  | cons ht _ ih =>
    rw [stopFrom_cons]
    have := ht.le_start
    have := ht.stop_eq
    omega

/-- A token of a placed list. -/
theorem exists_standsAfter (h : Placed source o ts) {t : Token} (ht : t ∈ ts) :
    ∃ a, o ≤ a ∧ t.StandsAfter source a ∧ t.stop ≤ stopFrom o ts := by
  obtain ⟨front, back, rfl⟩ := List.append_of_mem ht
  obtain ⟨hfront, - | ⟨hstands, hback⟩⟩ := append_iff.1 h
  refine ⟨_, hfront.le_stopFrom, hstands, ?_⟩
  rw [stopFrom_append, stopFrom_cons]
  exact hback.le_stopFrom

end Placed

end YulPlus
