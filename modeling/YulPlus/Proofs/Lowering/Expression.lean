import YulPlus.Proofs.Lowering.Grammar

/-!
# Reading expressions

`expressionFrom` reads an expression with a state and a count of the calls that are open; the
grammar has a constructor for a call and no state. They accept the same tokens and stop at the same
place (`expression_eq_ok_iff`).

What is still to be read inside `depth` calls is `ClosesCalls depth`: further arguments and closing
parentheses. From the reader to the grammar, `Awaiting.Reads` says for each state what the tokens
read from there on are, and one step keeps it (`Awaiting.step_eq_ok` lists the steps). From the
grammar to the reader, an expression in front of any rest leads to the state behind an operand
(`expressionFrom_append`), by induction on the expression.
-/

namespace YulPlus

/-- The tokens behind an expression that stands inside `depth` calls, up to the end of the outermost
one. -/
inductive ClosesCalls : Nat → List Token → Prop
  | zero : ClosesCalls 0 []
  | close {depth : Nat} {c : Token} {ts : List Token} (hc : c.kind = .closeParen)
      (hts : ClosesCalls depth ts) : ClosesCalls (depth + 1) (c :: ts)
  | next {depth : Nat} {comma : Token} {e ts : List Token} (hcomma : comma.kind = .comma)
      (he : IsExpression e) (hts : ClosesCalls (depth + 1) ts) :
      ClosesCalls (depth + 1) (comma :: e ++ ts)

/-- An argument and what closes the calls around it are the arguments of the innermost call, its
closing parenthesis, and what closes the others. -/
theorem ClosesCalls.exists_arguments {depth : Nat} {e ts : List Token} (he : IsExpression e)
    (h : ClosesCalls (depth + 1) ts) :
    ∃ arguments inner c rest, e ++ ts = inner ++ c :: rest ∧ CommaList arguments inner ∧
      (∀ a ∈ arguments, IsExpression a) ∧ c.kind = .closeParen ∧ ClosesCalls depth rest := by
  generalize hd : depth + 1 = d at h
  induction h generalizing e with
  | zero => omega
  | @close d c ts hc hts =>
    obtain rfl : depth = d := by omega
    exact ⟨[e], e, c, ts, rfl, .single, by simpa using he, hc, hts⟩
  | @next d comma e' ts hcomma he' hts ih =>
    obtain ⟨arguments, inner, c, rest, heq, hlist, hall, hc, hrest⟩ := ih he' hd
    refine ⟨e :: arguments, e ++ comma :: inner, c, rest, ?_, .cons hcomma hlist, ?_, hc, hrest⟩
    · rw [List.cons_append, heq]
      simp
    · simpa using ⟨he, hall⟩

/-! ### From the reader to the grammar -/

namespace Awaiting

/-- A name may be the beginning of a call; every other operand is complete. -/
theorem beginOperand_eq_ok {depth : Nat} {k : TokenKind} {r : Option (Awaiting × Nat)}
    (h : beginOperand depth k = .ok r) :
    (r = some (call, depth) ∧ k = .identifier) ∨
      (r = some (separator, depth) ∧ k ∈ expressionKinds ∧ k ≠ .identifier) := by
  rw [beginOperand] at h
  split at h
  · rename_i hname
    cases h
    exact .inl ⟨rfl, hname⟩
  · rename_i hname
    split at h
    · rename_i hkind
      cases h
      exact .inr ⟨rfl, hkind, hname⟩
    · cases h

/-- Behind an operand a call goes on or ends; outside of every call the expression ends. -/
theorem endOperand_eq_ok {depth : Nat} {k : TokenKind} {r : Option (Awaiting × Nat)}
    (h : endOperand depth k = .ok r) :
    (r = some (operand, depth) ∧ k = .comma ∧ 0 < depth) ∨
      (∃ outer, depth = outer + 1 ∧ r = some (separator, outer) ∧ k = .closeParen) ∨
      (r = none ∧ depth = 0) := by
  rcases depth with - | outer
  · cases h
    exact .inr (.inr ⟨rfl, rfl⟩)
  · rw [endOperand] at h
    split at h
    · rename_i hcomma
      cases h
      exact .inl ⟨rfl, hcomma, Nat.succ_pos outer⟩
    · split at h
      · rename_i hclose
        cases h
        exact .inr (.inl ⟨outer, rfl, rfl, hclose⟩)
      · cases h

/-- **One step of the reader**: where it can lead, and from which states. -/
theorem step_eq_ok {state : Awaiting} {depth : Nat} {k : TokenKind} {r : Option (Awaiting × Nat)}
    (h : state.step depth k = .ok r) :
    (r = some (call, depth) ∧ k = .identifier ∧ (state = operand ∨ state = firstArgument)) ∨
    (r = some (separator, depth) ∧ k ∈ expressionKinds ∧ k ≠ .identifier ∧
      (state = operand ∨ state = firstArgument)) ∨
    (r = some (firstArgument, depth + 1) ∧ k = .openParen ∧ state = call) ∨
    (r = some (operand, depth) ∧ k = .comma ∧ 0 < depth ∧ (state = call ∨ state = separator)) ∨
    (∃ outer, depth = outer + 1 ∧ r = some (separator, outer) ∧ k = .closeParen ∧
      state ≠ operand) ∨
    (r = none ∧ depth = 0 ∧
      (state = separator ∨ state = firstArgument ∨ state = call ∧ k ≠ .openParen)) := by
  cases state with
  | operand => rcases beginOperand_eq_ok h with h | h <;> simp [h]
  | firstArgument =>
    simp only [step] at h
    split at h
    · rcases endOperand_eq_ok h with h | ⟨outer, h⟩ | h <;> simp_all
    · rcases beginOperand_eq_ok h with h | h <;> simp [h]
  | call =>
    simp only [step] at h
    split at h
    · cases h
      simp_all
    · rcases endOperand_eq_ok h with h | ⟨outer, h⟩ | h <;> simp_all
  | separator => rcases endOperand_eq_ok h with h | ⟨outer, h⟩ | h <;> simp [h]

/-- What the tokens are that are read from a state on, inside `depth` calls and up to the token
`next`. -/
def Reads (next : Token) : Awaiting → Nat → List Token → Prop
  | operand, depth, ts => ∃ e rest, ts = e ++ rest ∧ IsExpression e ∧ ClosesCalls depth rest ∧
      (rest = [] → ExpressionEndsBefore next e)
  | firstArgument, depth, ts => ReadsArguments depth ts
  | call, depth, ts =>
      (∃ o rest, ts = o :: rest ∧ o.kind = .openParen ∧ ReadsArguments (depth + 1) rest) ∨
        ClosesCalls depth ts ∧ (ts = [] → next.kind ≠ .openParen)
  | separator, depth, ts => ClosesCalls depth ts
where
  /-- The arguments of a call, if any, and what closes it and the calls around it. -/
  ReadsArguments (depth : Nat) (ts : List Token) : Prop :=
    ∃ e rest, ts = e ++ rest ∧ ClosesCalls depth rest ∧
      (e = [] ∧ (∀ c ∈ rest.head?, c.kind = .closeParen) ∨ IsExpression e)

variable {next f : Token} {depth : Nat} {ts : List Token}

/-- A name and what is read behind it. -/
theorem reads_operand_of_call (hf : f.kind = .identifier) (h : call.Reads next depth ts) :
    operand.Reads next depth (f :: ts) := by
  rcases h with ⟨o, rest, rfl, ho, e, rest, rfl, hcloses, ⟨rfl, hc⟩ | he⟩ | ⟨hcloses, hnext⟩
  -- a call without arguments, a call with some, and a name alone
  · cases hcloses with
    | @close _ c ts hclose hts =>
      exact ⟨[f, o, c], ts, rfl, .emptyCall hf ho hclose, hts, fun _ ↦ trivial⟩
    | @next _ comma e ts hcomma =>
      have := hc comma rfl
      simp [hcomma] at this
  · obtain ⟨arguments, inner, c, rest', heq, hlist, hall, hc, hrest⟩ := hcloses.exists_arguments he
    refine ⟨f :: o :: inner ++ [c], rest', by simp [heq], .call hf ho hc hlist hall, hrest, ?_⟩
    exact fun _ ↦ trivial
  · exact ⟨[f], ts, rfl, .atom (by simp [hf, expressionKinds]), hcloses, fun h _ ↦ hnext h⟩

/-- A literal and what is read behind it. -/
theorem reads_operand_of_separator (hf : f.kind ∈ expressionKinds) (hne : f.kind ≠ .identifier)
    (h : separator.Reads next depth ts) : operand.Reads next depth (f :: ts) :=
  ⟨[f], ts, rfl, .atom hf, h, fun _ hk ↦ absurd hk hne⟩

theorem reads_firstArgument_of_operand (h : operand.Reads next depth ts) :
    firstArgument.Reads next depth ts := by
  obtain ⟨e, rest, rfl, he, hcloses, -⟩ := h
  exact ⟨e, rest, rfl, hcloses, .inr he⟩

/-- A reader that stops in front of `next` has no call open and awaits no operand. -/
theorem reads_nil_of_step {state : Awaiting} (hdepth : state = firstArgument → 0 < depth)
    (h : state.step depth next.kind = .ok none) : state.Reads next depth [] := by
  rcases step_eq_ok h with h | h | h | h | ⟨outer, -, h, -⟩ |
    ⟨-, rfl, hstate⟩
  · cases h.1
  · cases h.1
  · cases h.1
  · cases h.1
  · cases h
  · rcases hstate with rfl | rfl | ⟨rfl, hne⟩
    · exact .zero
    · exact absurd (hdepth rfl) (by omega)
    · exact .inr ⟨.zero, fun _ ↦ hne⟩

/-- **What one step keeps.** If the tokens behind `t` are read as the next state says, `t` and these
tokens are read as the state before says. -/
theorem reads_cons_of_step {state state' : Awaiting} {inner : Nat} {t : Token}
    (h : state.step depth t.kind = .ok (some (state', inner)))
    (hts : state'.Reads next inner ts) : state.Reads next depth (t :: ts) := by
  rcases step_eq_ok h with ⟨hr, ht, hstate⟩ | ⟨hr, ht, hne, hstate⟩ | ⟨hr, ht, rfl⟩ |
    ⟨hr, ht, hpos, hstate⟩ | ⟨outer, rfl, hr, ht, hstate⟩ | ⟨hr, -, -⟩
  · cases hr
    rcases hstate with rfl | rfl
    · exact reads_operand_of_call ht hts
    · exact reads_firstArgument_of_operand (reads_operand_of_call ht hts)
  · cases hr
    rcases hstate with rfl | rfl
    · exact reads_operand_of_separator ht hne hts
    · exact reads_firstArgument_of_operand (reads_operand_of_separator ht hne hts)
  · cases hr
    exact .inl ⟨t, ts, rfl, ht, hts⟩
  · cases hr
    obtain ⟨outer, rfl⟩ : ∃ outer, depth = outer + 1 := ⟨depth - 1, by omega⟩
    obtain ⟨e, rest, rfl, he, hcloses, -⟩ := hts
    have hcloses' : ClosesCalls (outer + 1) (t :: e ++ rest) := .next ht he hcloses
    rcases hstate with rfl | rfl
    · exact .inr ⟨hcloses', by simp⟩
    · exact hcloses'
  · cases hr
    have hcloses : ClosesCalls (inner + 1) (t :: ts) := .close ht hts
    cases state with
    | operand => exact absurd rfl hstate
    | firstArgument =>
      refine ⟨[], t :: ts, rfl, hcloses, .inl ⟨rfl, fun c hc ↦ ?_⟩⟩
      obtain rfl := Option.mem_some_iff.1 hc
      exact ht
    | call => exact .inr ⟨hcloses, by simp⟩
    | separator => exact hcloses
  · cases hr

/-- Only inside a call does the reader await a first argument. -/
theorem pos_of_step {state : Awaiting} {inner : Nat} {k : TokenKind}
    (h : state.step depth k = .ok (some (firstArgument, inner))) : 0 < inner := by
  rcases step_eq_ok h with ⟨hr, -⟩ | ⟨hr, -⟩ | ⟨hr, -⟩ | ⟨hr, -⟩ | ⟨outer, -, hr, -⟩ | ⟨hr, -⟩ <;>
    cases hr
  omega

end Awaiting

section Sound

variable {stop : Token} {state : Awaiting} {depth : Nat} {tokens read rest : List Token}

/-- What is read from a state on is what the grammar says. The state behind an opening parenthesis
is only reached inside a call. -/
theorem reads_of_expressionFrom (hdepth : state = .firstArgument → 0 < depth)
    (h : expressionFrom stop state depth tokens = .ok (read, rest)) :
    state.Reads (rest.headD stop) depth read := by
  fun_induction expressionFrom stop state depth tokens generalizing read rest with
  | case1 | case3 | case4 | case6 => cases h
  | case2 state depth hstep =>
    cases h
    exact Awaiting.reads_nil_of_step hdepth hstep
  | case5 state depth t tail hstep =>
    cases h
    exact Awaiting.reads_nil_of_step hdepth hstep
  | case7 state depth t tail next inner hstep read' after' hrest ih =>
    cases h
    refine Awaiting.reads_cons_of_step hstep (ih ?_ hrest)
    rintro rfl
    exact Awaiting.pos_of_step hstep

end Sound

/-! ### From the grammar to the reader -/

section Complete

variable {stop f o t : Token} {depth : Nat} {e rest : List Token}

/-- The tokens `e` in front of what is read. -/
def readBehind (e : List Token) (r : Except SyntaxError (List Token × List Token)) :
    Except SyntaxError (List Token × List Token) :=
  r.map fun (read, after) ↦ (e ++ read, after)

theorem readBehind_readBehind (d e : List Token)
    (r : Except SyntaxError (List Token × List Token)) :
    readBehind d (readBehind e r) = readBehind (d ++ e) r := by
  cases r <;> simp [readBehind, Except.map]

/-- A step that goes on reads its token. -/
theorem expressionFrom_cons_of_step {state state' : Awaiting} {inner : Nat}
    (h : state.step depth t.kind = .ok (some (state', inner))) :
    expressionFrom stop state depth (t :: rest) =
      readBehind [t] (expressionFrom stop state' inner rest) := by
  rw [expressionFrom, h]
  dsimp only
  cases expressionFrom stop state' inner rest <;> rfl

/-- In front of anything but a parenthesis, a name is a complete operand. -/
theorem expressionFrom_call (h : (rest.headD stop).kind ≠ .openParen) :
    expressionFrom stop .call depth rest = expressionFrom stop .separator depth rest := by
  have hstep : ∀ k, k ≠ TokenKind.openParen →
      Awaiting.step depth k .call = Awaiting.step depth k .separator :=
    fun k hk ↦ if_neg hk
  cases rest with
  | nil => rw [expressionFrom, expressionFrom, hstep stop.kind h]
  | cons t rest => rw [expressionFrom, expressionFrom, hstep t.kind h]

/-- In front of anything but the end of the call, a first argument is an operand. -/
theorem expressionFrom_firstArgument (h : t.kind ≠ .closeParen) :
    expressionFrom stop .firstArgument depth (t :: rest) =
      expressionFrom stop .operand depth (t :: rest) := by
  have hstep : Awaiting.step depth t.kind .firstArgument = Awaiting.step depth t.kind .operand :=
    if_neg h
  rw [expressionFrom, expressionFrom, hstep]

theorem IsExpression.exists_head (h : IsExpression e) :
    ∃ t ts, e = t :: ts ∧ t.kind ∈ expressionKinds := by
  cases h with
  | atom ht => exact ⟨_, _, rfl, ht⟩
  | emptyCall hf | call hf => exact ⟨_, _, rfl, by simp [hf, expressionKinds]⟩

theorem CommaList.exists_head {us : List (List Token)} (h : CommaList us e)
    (hus : ∀ a ∈ us, IsExpression a) : ∃ t ts, e = t :: ts ∧ t.kind ∈ expressionKinds := by
  cases h with
  | single => exact (hus e (by simp)).exists_head
  | @cons u ts us comma =>
    obtain ⟨t, us', rfl, ht⟩ := (hus u (by simp)).exists_head
    exact ⟨t, us' ++ comma :: ts, rfl, ht⟩

theorem expressionEndsBefore_of_ne {next : Token} (h : next.kind ≠ .openParen) (e : List Token) :
    ExpressionEndsBefore next e := by
  unfold ExpressionEndsBefore
  split
  · exact fun _ ↦ h
  · trivial

/-- Reading a list of arguments, when each of them is read whole. -/
theorem expressionFrom_commaList {us : List (List Token)} {ts : List Token}
    (hts : CommaList us ts)
    (hus : ∀ a ∈ us, ∀ rest : List Token, (rest.headD stop).kind ≠ .openParen →
      expressionFrom stop .operand (depth + 1) (a ++ rest) =
        readBehind a (expressionFrom stop .separator (depth + 1) rest))
    (hrest : (rest.headD stop).kind ≠ .openParen) :
    expressionFrom stop .operand (depth + 1) (ts ++ rest) =
      readBehind ts (expressionFrom stop .separator (depth + 1) rest) := by
  induction hts with
  | single => exact hus _ (by simp) rest hrest
  | @cons u ts us comma hcomma _ ih =>
    have hstep : Awaiting.step (depth + 1) comma.kind .separator =
        .ok (some (.operand, depth + 1)) := by
      simp [Awaiting.step, Awaiting.endOperand, hcomma]
    rw [List.append_assoc, List.cons_append, hus u (by simp) _ (by simp [hcomma]),
      expressionFrom_cons_of_step hstep, ih fun a ha ↦ hus a (by simp [ha]), readBehind_readBehind,
      readBehind_readBehind]
    simp

/-- **An expression is read whole** and leads behind an operand, inside any number of calls. -/
theorem expressionFrom_append (he : IsExpression e) :
    ∀ (depth : Nat) (rest : List Token), ExpressionEndsBefore (rest.headD stop) e →
      expressionFrom stop .operand depth (e ++ rest) =
        readBehind e (expressionFrom stop .separator depth rest) := by
  have hname : ∀ {f : Token} (depth : Nat), f.kind = .identifier →
      Awaiting.step depth f.kind .operand = .ok (some (.call, depth)) := by
    intro f depth hf
    simp [Awaiting.step, Awaiting.beginOperand, hf]
  have hopen : ∀ {o : Token} (depth : Nat), o.kind = .openParen →
      Awaiting.step depth o.kind .call = .ok (some (.firstArgument, depth + 1)) := by
    intro o depth ho
    simp [Awaiting.step, ho]
  induction he with
  | @atom t ht =>
    intro depth rest hnext
    rw [List.singleton_append]
    by_cases hk : t.kind = .identifier
    · rw [expressionFrom_cons_of_step (hname depth hk), expressionFrom_call (hnext hk)]
    · have hstep : Awaiting.step depth t.kind .operand = .ok (some (.separator, depth)) := by
        simp [Awaiting.step, Awaiting.beginOperand, hk, ht]
      rw [expressionFrom_cons_of_step hstep]
  | @emptyCall f o c hf ho hc =>
    intro depth rest _
    have hclose : Awaiting.step (depth + 1) c.kind .firstArgument =
        .ok (some (.separator, depth)) := by
      simp [Awaiting.step, Awaiting.endOperand, hc]
    rw [List.cons_append, List.cons_append, List.cons_append, List.nil_append,
      expressionFrom_cons_of_step (hname depth hf), expressionFrom_cons_of_step (hopen depth ho),
      expressionFrom_cons_of_step hclose, readBehind_readBehind, readBehind_readBehind]
    rfl
  | @call f o c arguments ts hf ho hc hts harguments ih =>
    intro depth rest _
    have hclose : Awaiting.step (depth + 1) c.kind .separator = .ok (some (.separator, depth)) := by
      simp [Awaiting.step, Awaiting.endOperand, hc]
    -- the first argument is read from a state of its own, which the end of the call leads out of
    obtain ⟨t, ts', rfl, ht⟩ := hts.exists_head harguments
    have htk : t.kind ≠ .closeParen := by
      intro hk
      simp [hk, expressionKinds] at ht
    have hfirst : expressionFrom stop .firstArgument (depth + 1) (t :: ts' ++ c :: rest) =
        readBehind (t :: ts') (expressionFrom stop .separator (depth + 1) (c :: rest)) := by
      rw [List.cons_append, expressionFrom_firstArgument htk, ← List.cons_append]
      refine expressionFrom_commaList hts (fun a ha rest' hrest' ↦ ?_) (by simp [hc])
      exact ih a ha (depth + 1) rest' (expressionEndsBefore_of_ne hrest' a)
    have happ : f :: o :: (t :: ts') ++ [c] ++ rest = f :: o :: (t :: ts' ++ c :: rest) := by simp
    rw [happ, expressionFrom_cons_of_step (hname depth hf),
      expressionFrom_cons_of_step (hopen depth ho), hfirst, expressionFrom_cons_of_step hclose,
      readBehind_readBehind, readBehind_readBehind, readBehind_readBehind]
    simp

/-- **Reading an expression** takes exactly an expression of the grammar, and nothing of what may
stand behind it. -/
theorem expression_eq_ok_iff {tokens : List Token} :
    expression stop tokens = .ok (e, rest) ↔
      tokens = e ++ rest ∧ IsExpression e ∧ ExpressionEndsBefore (rest.headD stop) e := by
  constructor
  · intro h
    obtain ⟨e', tail, rfl, he, hcloses, hnext⟩ := reads_of_expressionFrom (by simp) h
    cases hcloses
    rw [List.append_nil] at h ⊢
    exact ⟨(append_of_expressionFrom h).symm, he, hnext rfl⟩
  · rintro ⟨rfl, he, hnext⟩
    have hdone : expressionFrom stop .separator 0 rest = .ok ([], rest) := by
      cases rest <;> rw [expressionFrom] <;> rfl
    rw [expression, expressionFrom_append he 0 rest hnext, hdone]
    simp [readBehind, Except.map]

end Complete

end YulPlus
