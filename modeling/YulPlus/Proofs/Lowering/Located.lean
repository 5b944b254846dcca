import YulPlus.Proofs.Lowering.Language
import YulPlus.Proofs.Source.Refused

/-!
# Where errors are located

A source that is not lowered is refused at a place: at one of its tokens, which may be the one that
closes the list, or where no token can be cut off (`SyntaxError.Located`). There is one exception. A
number that scans and still is no integer, since it is written with digit signs or has too many
digits, ends lowering without a place when it stands for the size of a field (`HasUnreadableSize`).
`lower_outcome` says that nothing else can happen, and `lower_unlocated` that the exception does.

Each reader is followed once. What it reports lies among the tokens it was given or is the token
that stops it, and its callers hand these on as a part of their own tokens, so `Explained` only has
to be kept when tokens are added around (`LoweringError.Explained.mono`). That the lookup of a hash
literal never fails needs no reader: all of them are taken in before (`Interface.exists_hash?`). -/

namespace YulPlus

open Text

/-- The error is located at one of the tokens. -/
def SyntaxError.PointsInto (tokens : List Token) (e : SyntaxError) : Prop :=
  ∃ t ∈ tokens, e.position = t.start

/-- The error has a place in the source, and its line and column are those of this place. -/
inductive SyntaxError.Located (source : Text) (e : SyntaxError) : Prop
  /-- It is located at a token. -/
  | token {tokens : List Token} (htokens : tokenize source = .ok tokens)
      (he : e.PointsInto tokens) (hplace : e.position.IsAt source)
  /-- It is located where no lexeme can be cut off. -/
  | lexical {fault : LexicalFault} {c : Char} {tail : Text}
      (htokens : tokenize source = .error ⟨e.position, fault⟩) (hfault : e.fault = .lexical fault)
      (hplace : e.position.IsAt source) (hrest : source.drop e.position.offset = c :: tail)
      (hcut : Cut.next c tail = .error fault)

/-- The tokens are fields of a struct, each with a comma behind it. -/
inductive AreFields : List Token → Prop
  | nil : AreFields []
  | cons {u ts : List Token} {comma : Token} {field : Field} (hu : IsField u field)
      (hcomma : comma.kind = .comma) (hts : AreFields ts) : AreFields (u ++ comma :: ts)

/-- Behind fields that can be read, a field has a size that cannot be read as an integer. -/
inductive UnreadableField (fault : IntegerFault) : List Token → Prop
  | mk {ts back : List Token} {name colon number : Token} (hts : AreFields ts)
      (hname : name.kind = .identifier) (hcolon : colon.kind = .colon)
      (hnumber : number.kind = .number) (hdecimal : dropHead? ['0', 'x'] number.value = none)
      (hsize : Decimal.readNatural number.value = .error fault) :
      UnreadableField fault (ts ++ name :: colon :: number :: back)

/-- Among the tokens is a struct with a size that cannot be read as an integer. -/
def HasUnreadableSize (tokens : List Token) (fault : IntegerFault) : Prop :=
  ∃ front keyword name opening back,
    tokens = front ++ keyword :: name :: opening :: back ∧ keyword.kind = .structWord ∧
      name.kind = .identifier ∧ opening.kind = .openParen ∧ UnreadableField fault back

/-- The reason for the error is among the tokens. -/
def LoweringError.Explained (tokens : List Token) : LoweringError → Prop
  | located e => e.PointsInto tokens
  | integer fault => HasUnreadableSize tokens fault

section

variable {source : Text} {interface : Interface} {objects : Bool} {stop t : Token} {b : Bindings}
  {tokens ts us : List Token} {segs : List Segment} {e : SyntaxError} {le : LoweringError}

/-! ### Among more tokens -/

theorem SyntaxError.PointsInto.mono (h : e.PointsInto ts) (hsub : ts ⊆ us) : e.PointsInto us := by
  obtain ⟨t, ht, he⟩ := h
  exact ⟨t, hsub ht, he⟩

/-- What is wrong behind some tokens, up to the one that stops a reader. -/
theorem SyntaxError.PointsInto.behind (front : List Token) (h : e.PointsInto (ts ++ [stop])) :
    e.PointsInto (front ++ ts ++ [stop]) :=
  h.mono (by simp)

theorem Token.pointsInto_error {fault : SyntaxFault} (ht : t ∈ tokens) :
    (t.error fault).PointsInto tokens :=
  ⟨t, ht, rfl⟩

theorem UnreadableField.append {fault : IntegerFault} (h : UnreadableField fault ts)
    (more : List Token) : UnreadableField fault (ts ++ more) := by
  obtain ⟨hts, hname, hcolon, hnumber, hdecimal, hsize⟩ := h
  rw [List.append_assoc]
  exact .mk hts hname hcolon hnumber hdecimal hsize

/-- **An error is explained** by more tokens as well. -/
theorem LoweringError.Explained.mono (h : le.Explained ts) (hpart : ts <:+: us) :
    le.Explained us := by
  cases le with
  | located e => exact SyntaxError.PointsInto.mono h hpart.subset
  | integer fault =>
    obtain ⟨before, after, rfl⟩ := hpart
    obtain ⟨front, keyword, name, opening, back, rfl, hkeyword, hname, hopening, hback⟩ := h
    exact ⟨before ++ front, keyword, name, opening, back ++ after, by simp, hkeyword, hname,
      hopening, hback.append after⟩

theorem LoweringError.Explained.behind (front : List Token) (h : le.Explained (ts ++ [stop])) :
    le.Explained (front ++ ts ++ [stop]) :=
  h.mono ⟨front, [], by simp⟩

/-! ### Readers of declarations -/

theorem pointsInto_of_expect {kinds : List TokenKind} (h : expect stop kinds tokens = .error e) :
    e.PointsInto (tokens ++ [stop]) := by
  unfold expect at h
  split at h
  · obtain rfl := Except.error.inj h
    exact Token.pointsInto_error (by simp)
  · split at h
    · cases h
    · obtain rfl := Except.error.inj h
      exact Token.pointsInto_error (by simp)

theorem pointsInto_of_bindValue {name value : Text} (ht : t ∈ tokens)
    (h : b.bindValue t name value = .error e) : e.PointsInto tokens := by
  unfold Bindings.bindValue at h
  split at h
  · obtain rfl := Except.error.inj h
    exact Token.pointsInto_error ht
  · cases h

theorem pointsInto_of_bindStruct {fields : List Field} (ht : t ∈ tokens)
    (h : b.bindStruct t fields = .error e) : e.PointsInto tokens := by
  unfold Bindings.bindStruct at h
  split at h
  · obtain rfl := Except.error.inj h
    exact Token.pointsInto_error ht
  · cases h

theorem pointsInto_of_readMembers {name : Text} {position : Nat}
    (h : readMembers stop name position b tokens = .error e) : e.PointsInto (tokens ++ [stop]) := by
  fun_induction readMembers stop name position b tokens with
  | case1 _ _ _ e' hmember =>
    obtain rfl := Except.error.inj h
    exact pointsInto_of_expect hmember
  | case2 _ _ _ member rest₁ h₁ hmember e' hbind =>
    obtain rfl := Except.error.inj h
    obtain ⟨rfl, -⟩ := expect_eq_ok_iff.1 hmember
    exact pointsInto_of_bindValue (by simp) hbind
  | case3 _ _ _ member rest₁ h₁ hmember _ _ e' hseparator =>
    obtain rfl := Except.error.inj h
    obtain ⟨rfl, -⟩ := expect_eq_ok_iff.1 hmember
    exact (pointsInto_of_expect hseparator).behind [member]
  | case4 | case6 => cases h
  | case5 _ _ _ member rest₁ h₁ hmember _ _ separator rest₂ h₂ hseparator _ e' hrest ih =>
    obtain rfl := Except.error.inj h
    obtain ⟨rfl, -⟩ := expect_eq_ok_iff.1 hmember
    obtain ⟨rfl, -⟩ := expect_eq_ok_iff.1 hseparator
    exact (ih hrest).behind [member, separator]

theorem pointsInto_of_readEnum (h : readEnum stop b tokens = .error e) :
    e.PointsInto (tokens ++ [stop]) := by
  unfold readEnum at h
  split at h
  · rename_i hname
    obtain rfl := Except.error.inj h
    exact pointsInto_of_expect hname
  rename_i name rest₁ h₁ hname
  obtain ⟨rfl, -⟩ := expect_eq_ok_iff.1 hname
  split at h
  · rename_i hopening
    obtain rfl := Except.error.inj h
    exact (pointsInto_of_expect hopening).behind [name]
  rename_i opening rest₂ h₂ hopening
  obtain ⟨rfl, -⟩ := expect_eq_ok_iff.1 hopening
  split at h
  · rename_i hmembers
    obtain rfl := Except.error.inj h
    exact (pointsInto_of_readMembers hmembers).behind [name, opening]
  · cases h

theorem pointsInto_of_expressionFrom {state : Awaiting} {depth : Nat}
    (h : expressionFrom stop state depth tokens = .error e) : e.PointsInto (tokens ++ [stop]) := by
  fun_induction expressionFrom stop state depth tokens with
  | case1 | case3 | case4 =>
    obtain rfl := Except.error.inj h
    exact Token.pointsInto_error (by simp)
  | case2 | case5 | case7 => cases h
  | case6 _ _ t rest _ _ _ e' hrest ih =>
    obtain rfl := Except.error.inj h
    exact (ih hrest).behind [t]

theorem pointsInto_of_readConst (h : readConst source interface stop b tokens = .error le) :
    ∃ e, le = .located e ∧ e.PointsInto (tokens ++ [stop]) := by
  unfold readConst at h
  split at h
  · rename_i hname
    obtain rfl := Except.error.inj h
    exact ⟨_, rfl, pointsInto_of_expect hname⟩
  rename_i name rest₁ h₁ hname
  obtain ⟨rfl, -⟩ := expect_eq_ok_iff.1 hname
  split at h
  · rename_i hassign
    obtain rfl := Except.error.inj h
    exact ⟨_, rfl, (pointsInto_of_expect hassign).behind [name]⟩
  rename_i assign rest₂ h₂ hassign
  obtain ⟨rfl, -⟩ := expect_eq_ok_iff.1 hassign
  split at h
  · rename_i hvalue
    obtain rfl := Except.error.inj h
    exact ⟨_, rfl, (pointsInto_of_expressionFrom hvalue).behind [name, assign]⟩
  split at h
  · rename_i hbind
    obtain rfl := Except.error.inj h
    exact ⟨_, rfl, pointsInto_of_bindValue (by simp) hbind⟩
  · cases h

/-- A size that is refused is refused at its place, unless it cannot be read. -/
theorem readSize_eq_error (h : readSize t = .error le) :
    le = .located (t.error .fieldSize) ∨ ∃ fault, le = .integer fault ∧
      dropHead? ['0', 'x'] t.value = none ∧ Decimal.readNatural t.value = .error fault := by
  have hbounds : ∀ n : Nat, (if 1 ≤ n ∧ n ≤ maxSliceBytes then .ok n
      else .error (.located (t.error .fieldSize)) : Except LoweringError Nat) = .error le →
        le = .located (t.error .fieldSize) := by
    intro n hn
    split at hn
    · cases hn
    · exact (Except.error.inj hn).symm
  unfold readSize at h
  cases hhead : dropHead? ['0', 'x'] t.value with
  | some digits => exact .inl (hbounds _ (by simpa [hhead] using h))
  | none =>
    cases hsize : Decimal.readNatural t.value with
    | ok n => exact .inl (hbounds n (by simpa [hhead, hsize] using h))
    | error fault => exact .inr ⟨fault, by simpa [hhead, hsize] using h.symm, rfl, rfl⟩

/-- The fields of a struct: an error is located, or one of the sizes cannot be read. -/
theorem cases_of_readFields {fields : List Field}
    (h : readFields stop fields tokens = .error le) :
    (∃ e, le = .located e ∧ e.PointsInto (tokens ++ [stop])) ∨
      ∃ fault, le = .integer fault ∧ UnreadableField fault tokens := by
  fun_induction readFields stop fields tokens with
  | case1 _ _ e' hname =>
    obtain rfl := Except.error.inj h
    exact .inl ⟨_, rfl, pointsInto_of_expect hname⟩
  | case2 _ _ name rest₁ h₁ hname e' hcolon =>
    obtain rfl := Except.error.inj h
    obtain ⟨rfl, -⟩ := expect_eq_ok_iff.1 hname
    exact .inl ⟨_, rfl, (pointsInto_of_expect hcolon).behind [name]⟩
  | case3 _ _ name rest₁ h₁ hname colon rest₂ h₂ hcolon e' hnumber =>
    obtain rfl := Except.error.inj h
    obtain ⟨rfl, -⟩ := expect_eq_ok_iff.1 hname
    obtain ⟨rfl, -⟩ := expect_eq_ok_iff.1 hcolon
    exact .inl ⟨_, rfl, (pointsInto_of_expect hnumber).behind [name, colon]⟩
  | case4 _ _ name rest₁ h₁ hname colon rest₂ h₂ hcolon number rest₃ h₃ hnumber e' hsize =>
    obtain rfl := Except.error.inj h
    obtain ⟨rfl, hnameKind⟩ := expect_eq_ok_iff.1 hname
    obtain ⟨rfl, hcolonKind⟩ := expect_eq_ok_iff.1 hcolon
    obtain ⟨rfl, hnumberKind⟩ := expect_eq_ok_iff.1 hnumber
    rcases readSize_eq_error hsize with rfl | ⟨fault, rfl, hdecimal, hfault⟩
    · exact .inl ⟨_, rfl, Token.pointsInto_error (by simp)⟩
    · exact .inr ⟨fault, rfl, @UnreadableField.mk fault [] _ _ _ _ .nil (by simpa using hnameKind)
        (by simpa using hcolonKind) (by simpa using hnumberKind) hdecimal hfault⟩
  | case5 _ _ name rest₁ h₁ hname colon rest₂ h₂ hcolon number rest₃ h₃ hnumber =>
    obtain rfl := Except.error.inj h
    obtain ⟨rfl, -⟩ := expect_eq_ok_iff.1 hname
    exact .inl ⟨_, rfl, Token.pointsInto_error (by simp)⟩
  | case6 _ _ name rest₁ h₁ hname colon rest₂ h₂ hcolon number rest₃ h₃ hnumber _ _ _ e'
      hseparator =>
    obtain rfl := Except.error.inj h
    obtain ⟨rfl, -⟩ := expect_eq_ok_iff.1 hname
    obtain ⟨rfl, -⟩ := expect_eq_ok_iff.1 hcolon
    obtain ⟨rfl, -⟩ := expect_eq_ok_iff.1 hnumber
    exact .inl ⟨_, rfl, (pointsInto_of_expect hseparator).behind [name, colon, number]⟩
  | case7 | case9 => cases h
  | case8 fields _ name rest₁ h₁ hname colon rest₂ h₂ hcolon number rest₃ h₃ hnumber size hsize _
      separator rest₄ h₄ hseparator _ hclose e' hrest ih =>
    obtain rfl := Except.error.inj h
    obtain ⟨rfl, hnameKind⟩ := expect_eq_ok_iff.1 hname
    obtain ⟨rfl, hcolonKind⟩ := expect_eq_ok_iff.1 hcolon
    obtain ⟨rfl, hnumberKind⟩ := expect_eq_ok_iff.1 hnumber
    obtain ⟨rfl, hcomma⟩ := expect_eq_ok_iff.1 hseparator
    -- the field is read, so what goes wrong behind it goes wrong behind one field more
    rcases ih hrest with ⟨e, rfl, he⟩ | ⟨fault, rfl, hfault⟩
    · exact .inl ⟨e, rfl, he.behind [name, colon, number, separator]⟩
    · have hfield := isField_of_readSize hnameKind hcolonKind hnumberKind hsize
      obtain ⟨hts, hname', hcolon', hnumber', hdecimal, hsize'⟩ := hfault
      exact .inr ⟨fault, rfl, .mk (.cons hfield (by simpa [hclose] using hcomma) hts) hname'
        hcolon' hnumber' hdecimal hsize'⟩

theorem explained_of_readStruct (ht : t.kind = .structWord)
    (h : readStruct stop b tokens = .error le) : le.Explained (t :: tokens ++ [stop]) := by
  unfold readStruct at h
  split at h
  · rename_i hname
    obtain rfl := Except.error.inj h
    exact (pointsInto_of_expect hname).behind [t]
  rename_i name rest₁ h₁ hname
  obtain ⟨rfl, hnameKind⟩ := expect_eq_ok_iff.1 hname
  split at h
  · rename_i hopening
    obtain rfl := Except.error.inj h
    exact (pointsInto_of_expect hopening).behind [t, name]
  rename_i opening rest₂ h₂ hopening
  obtain ⟨rfl, hopeningKind⟩ := expect_eq_ok_iff.1 hopening
  split at h
  · rename_i hfields
    obtain rfl := Except.error.inj h
    rcases cases_of_readFields hfields with ⟨e, rfl, he⟩ | ⟨fault, rfl, hfault⟩
    · exact he.behind [t, name, opening]
    · exact ⟨[], t, name, opening, rest₂ ++ [stop], by simp, ht, by simpa using hnameKind,
        by simpa using hopeningKind, hfault.append [stop]⟩
  · split at h
    · rename_i hbind
      obtain rfl := Except.error.inj h
      exact pointsInto_of_bindStruct (by simp) hbind
    · cases h

theorem explained_of_readDeclaration (ht : t.kind.isDeclaration = true)
    (h : readDeclaration source interface stop b t tokens = .error le) :
    le.Explained (t :: tokens ++ [stop]) := by
  unfold readDeclaration at h
  split at h
  · cases hread : readEnum stop b tokens with
    | ok d => simp [hread, Except.mapError] at h
    | error e =>
      rw [hread] at h
      obtain rfl := Except.error.inj h
      exact (pointsInto_of_readEnum hread).behind [t]
  · obtain ⟨e, rfl, he⟩ := pointsInto_of_readConst h
    exact he.behind [t]
  · rename_i henum hconst
    refine explained_of_readStruct ?_ h
    simp only [TokenKind.isDeclaration, Bool.or_eq_true, decide_eq_true_eq] at ht
    exact ht.resolve_left fun h ↦ h.elim henum hconst

/-- **The body of a scope**: what is wrong with it is wrong with one of its declarations. -/
theorem explained_of_readBody (h : readBody source interface stop b tokens = .error le) :
    le.Explained (tokens ++ [stop]) := by
  fun_induction readBody source interface stop b tokens with
  | case1 | case4 | case6 => cases h
  | case2 b t rest ht e' hd =>
    obtain rfl := Except.error.inj h
    exact explained_of_readDeclaration ht hd
  | case3 b t rest ht d hd e' hrest ih =>
    obtain rfl := Except.error.inj h
    obtain ⟨_, ds, rest', rfl, -, -, -, hout⟩ := isDeclaration_of_readDeclaration ht hd
    have htail : d.rest.val = rest' := congrArg (·.2.2) hout
    rw [htail] at ih hrest
    exact (ih hrest).behind (t :: ds)
  | case5 b t rest ht e' hrest ih =>
    obtain rfl := Except.error.inj h
    exact (ih hrest).behind [t]

/-! ### The checks of a token list -/

/-- An error of a step whose errors are located, or of what follows. -/
theorem bind_mapError_eq_error {α β : Type} {x : Except SyntaxError α}
    {f : α → Except LoweringError β} (h : x.mapError .located >>= f = .error le) :
    (∃ e, le = .located e ∧ x = .error e) ∨ ∃ a, x = .ok a ∧ f a = .error le := by
  cases x with
  | error e => exact .inl ⟨e, (Except.error.inj h).symm, rfl⟩
  | ok a => exact .inr ⟨a, rfl, h⟩

theorem pointsInto_of_checkBrackets {stack : List Token}
    (h : checkBrackets stack tokens = .error e) : e.PointsInto (stack ++ tokens) := by
  fun_induction checkBrackets stack tokens with
  | case1 => cases h
  | case2 | case3 | case5 =>
    obtain rfl := Except.error.inj h
    exact Token.pointsInto_error (by simp)
  | case4 _ _ _ _ _ ih | case6 _ _ _ _ _ ih | case7 _ _ _ _ _ ih => exact (ih h).mono (by grind)

/-- A hash literal that is not taken in is at fault itself. -/
theorem exists_of_add (h : interface.add t = .error e) :
    ∃ fault, e = t.error (.signature fault) := by
  unfold Interface.add at h
  repeat' split at h
  all_goals first
    | exact ⟨_, (Except.error.inj h).symm⟩
    | cases h

theorem pointsInto_of_foldlM_add (h : tokens.foldlM Interface.add interface = .error e) :
    e.PointsInto tokens := by
  induction tokens generalizing interface with
  | nil => cases h
  | cons t tokens ih =>
    rw [List.foldlM_cons] at h
    cases hadd : interface.add t with
    | ok interface' =>
      rw [hadd] at h
      exact (ih h).mono (by simp)
    | error e' =>
      rw [hadd] at h
      obtain rfl := Except.error.inj h
      obtain ⟨fault, rfl⟩ := exists_of_add hadd
      exact Token.pointsInto_error (by simp)

theorem pointsInto_of_ofTokens (h : Segment.ofTokens objects tokens = .error e) :
    e.PointsInto tokens := by
  fun_induction Segment.ofTokens objects tokens with
  | case1 | case5 | case9 | case11 => cases h
  | case2 | case3 | case6 | case7 =>
    obtain rfl := Except.error.inj h
    exact Token.pointsInto_error (by simp)
  | case4 t _ opening inside _ body closing after hblock e' hrest ih =>
    obtain rfl := Except.error.inj h
    exact (ih hrest).mono (by rw [← append_of_closeBlock hblock]; grind)
  | case8 t rest _ _ body closing after hblock e' hrest ih =>
    obtain rfl := Except.error.inj h
    exact (ih hrest).mono (by rw [← append_of_closeBlock hblock]; grind)
  | case10 t rest _ _ e' hrest ih =>
    obtain rfl := Except.error.inj h
    exact (ih hrest).mono (by simp)

theorem pointsInto_of_checkOutside (h : Segment.checkOutside segs = .error e) :
    e.PointsInto (Segment.tokensOf segs) := by
  induction segs with
  | nil => cases h
  | cons seg segs ih =>
    cases seg with
    | scope opening body closing => exact (ih h).mono (by simp [Segment.tokensOf])
    | outside t =>
      have hstep : Segment.checkOutside (.outside t :: segs) =
          (if t.kind.isDeclaration then .error (t.error (.declarationOutside t.value))
            else .ok ()) >>= fun _ ↦ Segment.checkOutside segs := rfl
      rw [hstep] at h
      split at h
      · obtain rfl := Except.error.inj h
        exact Token.pointsInto_error (by simp [Segment.tokensOf, Segment.tokens])
      · exact (ih h).mono (by simp [Segment.tokensOf])

/-- **The scopes**: what is wrong with one of them is explained by its tokens. -/
theorem explained_of_allEdits (h : Segment.allEdits source interface segs = .error le) :
    le.Explained (Segment.tokensOf segs) := by
  induction segs with
  | nil => cases h
  | cons seg segs ih =>
    have hcons : Segment.tokensOf (seg :: segs) = seg.tokens ++ Segment.tokensOf segs := rfl
    rw [Segment.allEdits] at h
    cases hseg : seg.edits source interface with
    | ok first =>
      rw [hseg] at h
      cases hmore : Segment.allEdits source interface segs with
      | ok more => simp [hmore] at h
      | error e' =>
        simp only [hmore] at h
        obtain rfl := Except.error.inj h
        exact (ih hmore).mono (hcons ▸ (List.suffix_append _ _).isInfix)
    | error e' =>
      simp only [hseg] at h
      obtain rfl := Except.error.inj h
      cases seg with
      | outside t => cases hseg
      | scope opening body closing =>
        rw [Segment.edits, scopeEdits] at hseg
        split at hseg
        · rename_i hbody
          obtain rfl := Except.error.inj hseg
          exact (explained_of_readBody hbody).mono
            ⟨[opening], Segment.tokensOf segs, by simp [hcons, Segment.tokens]⟩
        · cases hseg

/-- **Every error of a token list is explained** by the tokens. -/
theorem explained_of_lowerTokens (h : lowerTokens source tokens = .error le) :
    le.Explained tokens := by
  rw [lowerTokens] at h
  obtain ⟨e, rfl, he⟩ | ⟨_, hbrackets, h⟩ := bind_mapError_eq_error h
  · exact pointsInto_of_checkBrackets he
  obtain ⟨e, rfl, he⟩ | ⟨interface, -, h⟩ := bind_mapError_eq_error h
  · exact pointsInto_of_foldlM_add he
  obtain ⟨e, rfl, he⟩ | ⟨segs, hsegs, h⟩ := bind_mapError_eq_error h
  · exact pointsInto_of_ofTokens he
  have hnested := checkBrackets_eq_ok_iff.1 hbrackets
  have htokens := ((ofTokens_eq_ok_iff hnested.closesSome).1 hsegs).tokensOf_append
  rw [List.append_nil] at htokens
  obtain ⟨e, rfl, he⟩ | ⟨_, -, h⟩ := bind_mapError_eq_error h
  · exact htokens ▸ pointsInto_of_checkOutside he
  cases hedits : Segment.allEdits source interface segs with
  | ok edits => simp [hedits, bind, Except.bind, pure, Except.pure] at h
  | error e =>
    rw [hedits] at h
    obtain rfl := Except.error.inj h
    exact htokens ▸ explained_of_allEdits hedits

/-! ### Whole sources -/

/-- **Where the lexer stops** it has come to a place at which it can cut nothing off. -/
theorem located_of_tokenize {error : LexicalError} (h : tokenize source = .error error) :
    error.position.IsAt source ∧ ∃ c tail, source.drop error.position.offset = c :: tail ∧
      Cut.next c tail = .error error.fault := by
  obtain ⟨front, c, tail, -, rfl, hposition, -, hstop⟩ := exists_of_tokenizeFrom_eq_error h
  refine ⟨hposition ▸ Position.isAt_start.after (r := c :: tail) rfl, c, tail, ?_, hstop⟩
  rw [hposition, Position.after_offset]
  exact drop_of_drop_eq rfl

/-- **A source is lowered or refused at a place**, or it has a field whose size cannot be read as an
integer. No hash literal that lowering looks up is missing. -/
theorem lower_outcome (source : Text) :
    ((∃ r, lower source = .ok r) ∨
      (∃ e, lower source = .error (.located e) ∧ e.Located source) ∨
      ∃ tokens fault, tokenize source = .ok tokens ∧ lower source = .error (.integer fault) ∧
        HasUnreadableSize tokens fault) ∧
      ∀ tokens interface, tokenize source = .ok tokens →
        Interface.ofTokens tokens = .ok interface → ∀ t ∈ tokens, t.kind.isHash = true →
          ∃ hash, interface.hash? t = some hash := by
  refine ⟨?_, fun tokens interface _ hinterface t ht ↦ Interface.exists_hash? hinterface ht⟩
  cases hlower : lower source with
  | ok r => exact .inl ⟨r, rfl⟩
  | error le =>
    refine .inr ?_
    cases htokens : tokenize source with
    | error error =>
      obtain ⟨hplace, c, tail, hrest, hcut⟩ := located_of_tokenize htokens
      simp only [lower, htokens] at hlower
      obtain rfl := Except.error.inj hlower
      exact .inl ⟨_, rfl, .lexical htokens rfl hplace hrest hcut⟩
    | ok tokens =>
      have hread : lowerTokens source tokens = .error le := by
        cases hread : lowerTokens source tokens with
        | error le' =>
          simpa [lower, htokens, hread, Except.mapError, bind, Except.bind] using hlower
        | ok result =>
          simp [lower, htokens, hread, Except.mapError, bind, Except.bind, pure,
            Except.pure] at hlower
      have hexplained := explained_of_lowerTokens hread
      cases le with
      | integer fault => exact .inr ⟨tokens, fault, rfl, rfl, hexplained⟩
      | located e =>
        obtain ⟨t, ht, he⟩ := hexplained
        have hplace := (tokenized_of_tokenizeFrom htokens).isAt rfl Position.isAt_start t ht
        exact .inl ⟨e, rfl, .token htokens ⟨t, ht, he⟩ (he ▸ hplace)⟩

/-- **An error without a place.** The size is a digit, but not one of a positional number. -/
theorem lower_unlocated :
    ∃ source fault, source = "\x7b mstruct S (f: ²) \x7d".toList ∧
      lower source = .error (.integer fault) ∧ (¬ ∃ r, lower source = .ok r) ∧
      ¬ ∃ e, lower source = .error (.located e) := by
  have hlower : lower "\x7b mstruct S (f: ²) \x7d".toList =
      .error (.integer (.invalid "²".toList)) := by
    decide +kernel
  refine ⟨_, _, rfl, hlower, ?_, ?_⟩
  · rintro ⟨r, hr⟩
    rw [hlower] at hr
    cases hr
  · rintro ⟨e, he⟩
    rw [hlower] at he
    cases he

end

end YulPlus
