import Mathlib.Data.List.Nodup
import YulPlus.Proofs.Lowering.Scopes

/-!
# Partners of brackets

Two views of nesting give every brace a partner. The check with a stack puts the index of an opening
bracket on the stack and takes it off at the closing one; `bracketPairs` are the pairs that it makes
in this way. Counting braces, and nothing else, leads from an opening brace to the index
`closingIndex?`. In a token list that passes the check the two agree, and the scopes of the list are
such pairs, one behind the other (`checkBrackets_partners`).

What a well-nested list does to the stack is nothing: its pairs lie within it, and behind it the
stack is as it was in front (`WellNested.bracketPairsFrom_append`). So a bracket is still on top
where its partner comes, which is the index that the count ends at. -/

namespace YulPlus

/-- The pairs of brackets among the tokens from index `i` on, found with a stack of the indices of
the brackets that are open. -/
def bracketPairsFrom : List Nat → Nat → List Token → List (Nat × Nat)
  | _, _, [] => []
  | stack, i, t :: rest =>
    if t.kind.isOpening then bracketPairsFrom (i :: stack) (i + 1) rest
    else
      match t.kind.opening?, stack with
      | some _, top :: below => (top, i) :: bracketPairsFrom below (i + 1) rest
      | _, _ => bracketPairsFrom stack (i + 1) rest

/-- The pairs of brackets that the check with a stack makes. -/
def bracketPairs (tokens : List Token) : List (Nat × Nat) :=
  bracketPairsFrom [] 0 tokens

/-- The index that counting braces comes to from the brace at index `i`. -/
def closingIndex? (tokens : List Token) (i : Nat) : Option Nat :=
  (closeBlock 0 (tokens.drop (i + 1))).map fun (inner, _, _) => i + 1 + inner.length

/-- The indices of the braces of the scopes, if the first segment begins at index `i`. -/
def Segment.spansFrom : Nat → List Segment → List (Nat × Nat)
  | _, [] => []
  | i, .outside _ :: segs => spansFrom (i + 1) segs
  | i, .scope _ inner _ :: segs =>
    (i, i + 1 + inner.length) :: spansFrom (i + 1 + inner.length + 1) segs

section

variable {objects : Bool} {stack : List Nat} {i j : Nat} {o c t : Token} {e : SyntaxError}
  {tokens inner before after rest : List Token} {segs : List Segment}

/-! ### The stack -/

theorem bracketPairsFrom_other (hopen : t.kind.isOpening = false)
    (hclose : t.kind.opening? = none) :
    bracketPairsFrom stack i (t :: rest) = bracketPairsFrom stack (i + 1) rest := by
  simp [bracketPairsFrom, hopen, hclose]

theorem bracketPairsFrom_opening (hopen : t.kind.isOpening = true) :
    bracketPairsFrom stack i (t :: rest) = bracketPairsFrom (i :: stack) (i + 1) rest := by
  simp [bracketPairsFrom, hopen]

theorem bracketPairsFrom_closing {k : TokenKind} (hclose : t.kind.opening? = some k) :
    bracketPairsFrom (j :: stack) i (t :: rest) =
      (j, i) :: bracketPairsFrom stack (i + 1) rest := by
  simp [bracketPairsFrom, hclose, (TokenKind.isOpening_of_opening? hclose).2]

/-- **A well-nested list leaves the stack as it was**, and its pairs do not depend on it. -/
theorem WellNested.bracketPairsFrom_append (h : WellNested inner) (stack : List Nat) (i : Nat)
    (rest : List Token) :
    bracketPairsFrom stack i (inner ++ rest) =
      bracketPairsFrom [] i inner ++ bracketPairsFrom stack (i + inner.length) rest := by
  induction h generalizing stack i rest with
  | nil => rfl
  | @other t ts hopen hclose _ ih =>
    rw [List.cons_append, bracketPairsFrom_other hopen hclose, bracketPairsFrom_other hopen hclose,
      ih, List.length_cons, Nat.add_right_comm, Nat.add_assoc]
  | @pair o c inner ts hopen hclose _ _ ihinner ihts =>
    -- the index of `o` is on top again where `c` stands
    have hpair : ∀ stack rest, bracketPairsFrom stack i (o :: (inner ++ c :: (ts ++ rest))) =
        bracketPairsFrom [] (i + 1) inner ++ (i, i + 1 + inner.length) ::
          (bracketPairsFrom [] (i + 1 + inner.length + 1) ts ++
            bracketPairsFrom stack (i + 1 + inner.length + 1 + ts.length) rest) := by
      intro stack rest
      rw [bracketPairsFrom_opening hopen, ihinner, bracketPairsFrom_closing hclose, ihts]
    have halone := hpair [] []
    rw [List.append_nil] at halone
    have hlength : i + (o :: (inner ++ c :: ts)).length = i + 1 + inner.length + 1 + ts.length := by
      simp only [List.length_cons, List.length_append]
      omega
    rw [List.cons_append, hlength, halone, List.cons_append, List.append_assoc, List.cons_append,
      hpair]
    simp [bracketPairsFrom]

/-- The pairs behind some tokens are made with the stack that they leave. -/
theorem exists_bracketPairsFrom_append (before : List Token) (stack : List Nat) (i : Nat) :
    ∃ pairs left, ∀ rest, bracketPairsFrom stack i (before ++ rest) =
      pairs ++ bracketPairsFrom left (i + before.length) rest := by
  induction before generalizing stack i with
  | nil => exact ⟨[], stack, fun _ ↦ rfl⟩
  | cons t before ih =>
    have hlength : i + (t :: before).length = i + 1 + before.length := by
      rw [List.length_cons]
      omega
    rcases hclose : t.kind.opening? with - | k
    · rcases hopen : t.kind.isOpening with - | -
      · obtain ⟨pairs, left, h⟩ := ih stack (i + 1)
        refine ⟨pairs, left, fun rest ↦ ?_⟩
        rw [List.cons_append, bracketPairsFrom_other hopen hclose, h, hlength]
      · obtain ⟨pairs, left, h⟩ := ih (i :: stack) (i + 1)
        refine ⟨pairs, left, fun rest ↦ ?_⟩
        rw [List.cons_append, bracketPairsFrom_opening hopen, h, hlength]
    · rcases stack with - | ⟨top, below⟩
      · obtain ⟨pairs, left, h⟩ := ih [] (i + 1)
        refine ⟨pairs, left, fun rest ↦ ?_⟩
        rw [List.cons_append, hlength, ← h]
        simp [bracketPairsFrom, hclose, (TokenKind.isOpening_of_opening? hclose).2]
      · obtain ⟨pairs, left, h⟩ := ih below (i + 1)
        refine ⟨(top, i) :: pairs, left, fun rest ↦ ?_⟩
        rw [List.cons_append, bracketPairsFrom_closing hclose, h, hlength]
        rfl

/-- A bracket and the one that closes a well-nested inside are a pair. -/
theorem WellNested.mem_bracketPairs (h : WellNested inner) (ho : o.kind.isOpening = true)
    (hc : c.kind.opening? = some o.kind) :
    (before.length, before.length + 1 + inner.length) ∈
      bracketPairs (before ++ o :: (inner ++ c :: after)) := by
  obtain ⟨pairs, left, hpairs⟩ := exists_bracketPairsFrom_append before [] 0
  rw [bracketPairs, hpairs, Nat.zero_add, bracketPairsFrom_opening ho, h.bracketPairsFrom_append,
    bracketPairsFrom_closing hc]
  simp

/-- An opening bracket is in one pair at most, and only if it is on the stack or comes later. -/
theorem nodup_bracketPairsFrom (hstack : stack.Nodup) (hlt : ∀ k ∈ stack, k < i) :
    ((bracketPairsFrom stack i tokens).map Prod.fst).Nodup ∧
      ∀ p ∈ bracketPairsFrom stack i tokens, p.1 ∈ stack ∨ i ≤ p.1 := by
  fun_induction bracketPairsFrom stack i tokens with
  | case1 => simp
  | case2 stack i t rest hopen ih =>
    have hnew : i ∉ stack := fun hi ↦ Nat.lt_irrefl i (hlt i hi)
    have hlt' : ∀ k ∈ i :: stack, k < i + 1 := by
      simpa using fun k hk ↦ Nat.lt_succ_of_lt (hlt k hk)
    obtain ⟨hnodup, hmem⟩ := ih (List.nodup_cons.2 ⟨hnew, hstack⟩) hlt'
    refine ⟨hnodup, fun p hp ↦ ?_⟩
    rcases hmem p hp with hp | hp
    · rcases List.mem_cons.1 hp with heq | hp
      · exact .inr (Nat.le_of_eq heq.symm)
      · exact .inl hp
    · exact .inr (by omega)
  | case3 i t rest hopen k top below hclose ih =>
    obtain ⟨htop, hbelow⟩ := List.nodup_cons.1 hstack
    obtain ⟨hnodup, hmem⟩ := ih hbelow fun k hk ↦ Nat.lt_succ_of_lt (hlt k (by simp [hk]))
    -- the index that is taken off the stack does not come back
    have hgone : top ∉ (bracketPairsFrom below (i + 1) rest).map Prod.fst := by
      intro h
      obtain ⟨p, hp, rfl⟩ := List.mem_map.1 h
      rcases hmem p hp with hp | hp
      · exact htop hp
      · have := hlt p.1 (by simp)
        omega
    refine ⟨List.nodup_cons.2 ⟨hgone, hnodup⟩, fun p hp ↦ ?_⟩
    rcases List.mem_cons.1 hp with rfl | hp
    · exact .inl (by simp)
    · rcases hmem p hp with hp | hp
      · exact .inl (by simp [hp])
      · exact .inr (by omega)
  | case4 stack i t rest hopen hnone ih =>
    obtain ⟨hnodup, hmem⟩ := ih hstack fun k hk ↦ Nat.lt_succ_of_lt (hlt k hk)
    exact ⟨hnodup, fun p hp ↦ (hmem p hp).imp_right Nat.le_of_succ_le⟩

/-- The partner of an opening bracket is the only one. -/
theorem eq_of_mem_bracketPairs {j j' : Nat} (h : (i, j) ∈ bracketPairs tokens)
    (h' : (i, j') ∈ bracketPairs tokens) : j = j' := by
  have hnodup : ((bracketPairs tokens).map Prod.fst).Nodup :=
    (nodup_bracketPairsFrom List.nodup_nil (by simp)).1
  exact congrArg Prod.snd (List.inj_on_of_nodup_map hnodup h h' rfl)

/-! ### Counting -/

/-- Two indices are those of an opening brace and of the closing one that the stack pairs with
it. -/
structure BracePair (tokens : List Token) (s : Nat × Nat) : Prop where
  lt : s.1 < s.2
  opening : ∃ o, tokens[s.1]? = some o ∧ o.kind = .openBrace
  closing : ∃ c, tokens[s.2]? = some c ∧ c.kind = .closeBrace
  mem_bracketPairs : s ∈ bracketPairs tokens

/-- The braces around a well-nested inside are a pair. -/
theorem WellNested.bracePair (h : WellNested inner) (ho : o.kind = .openBrace)
    (hc : c.kind = .closeBrace) :
    BracePair (before ++ o :: (inner ++ c :: after))
      (before.length, before.length + 1 + inner.length) where
  lt := by omega
  opening := ⟨o, by simp, ho⟩
  closing := ⟨c, by rw [Nat.add_assoc]; simp [Nat.add_comm 1], hc⟩
  mem_bracketPairs :=
    h.mem_bracketPairs (by simp [ho, TokenKind.isOpening]) (by simp [ho, hc, TokenKind.opening?])

/-- **Counting agrees with the stack.** From an opening brace the count comes to an index, and this
is the index of its partner. -/
theorem ClosesSome.exists_closingIndex (h : ClosesSome (o :: rest)) (ho : o.kind = .openBrace)
    (before : List Token) :
    ∃ j, closingIndex? (before ++ o :: rest) before.length = some j ∧
      BracePair (before ++ o :: rest) (before.length, j) := by
  obtain ⟨inner, c, after, rfl, hinner, hc, -⟩ := h.exists_block ho
  refine ⟨before.length + 1 + inner.length, ?_, hinner.bracePair ho hc⟩
  have hdrop : (before ++ o :: (inner ++ c :: after)).drop (before.length + 1) =
      inner ++ c :: after := by
    simp [List.drop_append]
  rw [closingIndex?, hdrop, closeBlock_of_wellNested hinner hc]
  rfl

/-! ### Scopes -/

/-- Behind the tokens `before`, the scopes among the segments of the tokens `ts` lie between pairs
of braces, each scope in front of the next one. -/
structure Spans (before ts : List Token) (segs : List Segment) : Prop where
  pairwise : (Segment.spansFrom before.length segs).Pairwise fun s s' ↦ s.2 < s'.1
  le : ∀ s ∈ Segment.spansFrom before.length segs, before.length ≤ s.1
  bracePair : ∀ s ∈ Segment.spansFrom before.length segs, BracePair (before ++ ts) s

theorem Spans.outside {ts : List Token} (h : Spans (before ++ [t]) ts segs) :
    Spans before (t :: ts) (.outside t :: segs) := by
  obtain ⟨hpairwise, hle, hpair⟩ := h
  rw [List.length_append, List.length_singleton] at hpairwise hle hpair
  refine ⟨hpairwise, fun s hs ↦ Nat.le_of_succ_le (hle s hs), fun s hs ↦ ?_⟩
  simpa using hpair s hs

theorem Spans.scope {ts : List Token} (ho : o.kind = .openBrace) (hinner : WellNested inner)
    (hc : c.kind = .closeBrace) (h : Spans (before ++ o :: (inner ++ [c])) ts segs) :
    Spans before (o :: (inner ++ c :: ts)) (.scope o inner c :: segs) := by
  obtain ⟨hpairwise, hle, hpair⟩ := h
  have hlength : (before ++ o :: (inner ++ [c])).length = before.length + 1 + inner.length + 1 := by
    simp only [List.length_append, List.length_cons, List.length_nil]
    omega
  rw [hlength] at hpairwise hle hpair
  refine ⟨List.pairwise_cons.2 ⟨fun s hs ↦ hle s hs, hpairwise⟩, fun s hs ↦ ?_, fun s hs ↦ ?_⟩
  · rcases List.mem_cons.1 hs with rfl | hs
    · exact Nat.le_refl _
    · have := hle s hs
      omega
  · rcases List.mem_cons.1 hs with rfl | hs
    · exact hinner.bracePair ho hc
    · simpa using hpair s hs

/-- **Scopes lie one behind the other**, each between a pair of braces. -/
theorem Walked.spans (h : Walked objects rest tokens segs) (before : List Token) :
    Spans before tokens segs := by
  induction h generalizing before with
  | stop => exact ⟨.nil, nofun, nofun⟩
  | outside _ _ ih => exact (ih _).outside
  | code _ _ ho hinner hc _ ih => exact (Spans.scope ho hinner hc (ih _)).outside
  | block _ ho hinner hc _ ih => exact .scope ho hinner hc (ih _)

/-- The walk fails only in front of a keyword `code` that no brace follows. -/
theorem ofTokens_eq_error (h : ClosesSome tokens)
    (herror : Segment.ofTokens objects tokens = .error e) :
    objects = true ∧ ∃ front k back, tokens = front ++ k :: back ∧ k.kind = .codeWord ∧
      (∀ o ∈ back.head?, o.kind ≠ .openBrace) ∧ e = (back.headD k).unexpected [.openBrace] := by
  obtain ⟨rest, segs, hwalked, hrest⟩ := @exists_walked objects tokens h
  have htokens := hwalked.tokensOf_append
  rw [hwalked.ofTokens_eq] at herror
  rcases hrest with rfl | ⟨rfl, k, tail, rfl, hk, hnone⟩
  · rw [Segment.ofTokens] at herror
    cases herror
  · refine ⟨rfl, Segment.tokensOf segs, k, tail, htokens.symm, hk, hnone, ?_⟩
    have hstop : Segment.ofTokens true (k :: tail) =
        .error ((tail.headD k).unexpected [.openBrace]) := by
      rcases tail with - | ⟨o, inside⟩
      · simp [Segment.ofTokens, hk]
      · have ho : o.kind ≠ .openBrace := hnone o rfl
        simp [Segment.ofTokens, hk, ho]
    rw [hstop] at herror
    exact (Except.error.inj herror).symm

/-- **The check with a stack and the count of braces agree.** The check accepts exactly the
well-nested token lists. In such a list the count comes to an end from every opening brace, and
where it ends the brace stands that the stack pairs with it, and no other index is paired with it.
The walk that looks for scopes finds them, or it meets a keyword `code` without a brace behind it;
the scopes it finds are pairs of the stack and lie one behind the other. -/
theorem checkBrackets_partners (tokens : List Token) :
    (checkBrackets [] tokens = .ok () ↔ WellNested tokens) ∧
    (checkBrackets [] tokens = .ok () →
      (∀ i o, tokens[i]? = some o → o.kind = .openBrace →
        ∃ j, closingIndex? tokens i = some j ∧ BracePair tokens (i, j) ∧
          ∀ k, (i, k) ∈ bracketPairs tokens ↔ k = j) ∧
      ∀ objects,
        match Segment.ofTokens objects tokens with
        | .ok segs =>
          Segment.tokensOf segs = tokens ∧
            (Segment.spansFrom 0 segs).Pairwise (fun s s' ↦ s.2 < s'.1) ∧
            ∀ s ∈ Segment.spansFrom 0 segs, BracePair tokens s
        | .error e =>
          objects = true ∧ ∃ front k back, tokens = front ++ k :: back ∧ k.kind = .codeWord ∧
            (∀ o ∈ back.head?, o.kind ≠ .openBrace) ∧
            e = (back.headD k).unexpected [.openBrace]) := by
  refine ⟨checkBrackets_eq_ok_iff, fun hcheck ↦ ⟨fun i o hi ho ↦ ?_, fun objects ↦ ?_⟩⟩
  · have hnested := (checkBrackets_eq_ok_iff.1 hcheck).closesSome
    obtain ⟨hlt, rfl⟩ := List.getElem?_eq_some_iff.1 hi
    have hsplit : tokens = tokens.take i ++ tokens[i] :: tokens.drop (i + 1) := by simp
    have hlength : (tokens.take i).length = i := by simp; omega
    rw [hsplit] at hnested
    obtain ⟨j, hj, hpair⟩ := hnested.of_append.exists_closingIndex ho (tokens.take i)
    rw [← hsplit, hlength] at hj hpair
    refine ⟨j, hj, hpair, fun k ↦ ⟨fun hk ↦ ?_, ?_⟩⟩
    · exact eq_of_mem_bracketPairs hk hpair.mem_bracketPairs
    · rintro rfl
      exact hpair.mem_bracketPairs
  · have hnested := (checkBrackets_eq_ok_iff.1 hcheck).closesSome
    cases hsegs : Segment.ofTokens objects tokens with
    | error e => exact ofTokens_eq_error hnested hsegs
    | ok segs =>
      have hwalked := segmented_of_ofTokens hnested hsegs
      obtain ⟨hpairwise, -, hpair⟩ := hwalked.spans []
      exact ⟨by simpa using hwalked.tokensOf_append, hpairwise, hpair⟩

/-- The tokens of a source with objects, in whose code block a block stands between parentheses. -/
def Sample.nestedTokens : List Token :=
  [⟨.objectWord, "object".toList, ⟨1, 1, 0⟩, 6⟩, ⟨.string, "\"a\"".toList, ⟨1, 8, 7⟩, 10⟩,
    ⟨.openBrace, "\x7b".toList, ⟨1, 12, 11⟩, 12⟩, ⟨.codeWord, "code".toList, ⟨1, 14, 13⟩, 17⟩,
    ⟨.openBrace, "\x7b".toList, ⟨1, 19, 18⟩, 19⟩, ⟨.openParen, "(".toList, ⟨1, 21, 20⟩, 21⟩,
    ⟨.openBrace, "\x7b".toList, ⟨1, 22, 21⟩, 22⟩, ⟨.closeBrace, "\x7d".toList, ⟨1, 24, 23⟩, 24⟩,
    ⟨.closeParen, ")".toList, ⟨1, 25, 24⟩, 25⟩, ⟨.closeBrace, "\x7d".toList, ⟨1, 27, 26⟩, 27⟩,
    ⟨.closeBrace, "\x7d".toList, ⟨1, 29, 28⟩, 29⟩, ⟨.endOfText, [], ⟨1, 30, 29⟩, 29⟩]

open Sample in
/-- The opening brace of the code block is closed by the last closing brace but one. -/
theorem checkBrackets_partners_nested :
    tokenize "object \"a\" \x7b code \x7b (\x7b \x7d) \x7d \x7d".toList = .ok nestedTokens ∧
      checkBrackets [] nestedTokens = .ok () ∧ WellNested nestedTokens ∧
      closingIndex? nestedTokens 4 = some 9 ∧ BracePair nestedTokens (4, 9) ∧
      ∃ segs, Segment.ofTokens true nestedTokens = .ok segs ∧ Segment.tokensOf segs = nestedTokens ∧
        ∀ s ∈ Segment.spansFrom 0 segs, BracePair nestedTokens s := by
  have hcheck : checkBrackets [] nestedTokens = .ok () := by decide +kernel
  obtain ⟨hnested, hagree⟩ := checkBrackets_partners nestedTokens
  obtain ⟨hcount, hscopes⟩ := hagree hcheck
  obtain ⟨j, hj, hpair, -⟩ := hcount 4 _ rfl rfl
  have hnine : closingIndex? nestedTokens 4 = some 9 := by decide +kernel
  obtain rfl := Option.some.inj (hj.symm.trans hnine)
  refine ⟨by decide +kernel, hcheck, hnested.1 hcheck, hnine, hpair, ?_⟩
  have hwalk := hscopes true
  cases hsegs : Segment.ofTokens true nestedTokens with
  | error e =>
    have hok : (Segment.ofTokens true nestedTokens).isOk := by decide +kernel
    rw [hsegs] at hok
    cases hok
  | ok segs =>
    rw [hsegs] at hwalk
    exact ⟨segs, rfl, hwalk.1, hwalk.2.2⟩

end

end YulPlus
