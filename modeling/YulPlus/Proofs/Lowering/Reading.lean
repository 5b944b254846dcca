import YulPlus.Proofs.Lowering.Expression

/-!
# Reading declarations and bodies

The readers of declarations take exactly what the grammar spells, and a body is read exactly when
its parts bind no name twice.

* `Bindings.declare` is what one declaration adds to the bindings, and `Bindings.Fresh` says that
  names can be added: none of them is taken and no two are the same. Together they are all that a
  reader does besides taking tokens.
* `isDeclaration_of_readDeclaration` and `readDeclaration_append` are the grammar of a single
  declaration: its tokens, and the declaration they spell, decide the result.
* `readBody_eq_ok_iff` is a whole body, by induction on it.

A reader returns the tokens it leaves together with a proof that they are fewer. `Declared.outcome`
forgets the proof, so that two readings of different lists can be compared.
-/

namespace YulPlus

open Text

/-! ### What a declaration binds -/

namespace Bindings

variable {source : Text} {interface : Interface} {b : Bindings} {name : Text} {ns ms : List Text}

/-- The names that are taken. -/
def names (b : Bindings) : List Text :=
  b.values.map Prod.fst ++ b.structs.map Struct.name

/-- Can these names be bound, one after the other? -/
def Fresh (b : Bindings) (ns : List Text) : Prop :=
  ns.Nodup ∧ ∀ n ∈ ns, n ∉ b.names

/-- The members of an enum, qualified by its name and numbered from `position` on. -/
def entries (name : Text) (position : Nat) (members : List Text) : List (Text × Text) :=
  (members.zipIdx position).map fun (member, i) ↦ (name ++ '.' :: member, Text.decimal i)

theorem entries_cons {position : Nat} {member : Text} {members : List Text} :
    entries name position (member :: members) =
      (name ++ '.' :: member, Text.decimal position) :: entries name (position + 1) members :=
  rfl

theorem map_fst_entries {position : Nat} {members : List Text} :
    (entries name position members).map Prod.fst = members.map fun m ↦ name ++ '.' :: m := by
  induction members generalizing position with
  | nil => rfl
  | cons member members ih => rw [entries_cons, List.map_cons, ih, List.map_cons]

/-- The bindings that a declaration leads to. -/
def declare (source : Text) (interface : Interface) (b : Bindings) : Declaration → Bindings
  | .enum name members => { b with values := b.values ++ entries name 0 members }
  | .const name value =>
    { b with values := b.values ++ [(name, valueText source interface b value)] }
  | .struct s => { b with structs := b.structs ++ [s] }

/-- The bindings that several declarations lead to, one after the other. -/
def declareAll (source : Text) (interface : Interface) (b : Bindings) (ds : List Declaration) :
    Bindings :=
  ds.foldl (declare source interface) b

theorem declares_eq_true_iff : b.declares name = true ↔ name ∈ b.names := by
  simp [declares, names]

theorem declares_eq_false_iff : b.declares name = false ↔ name ∉ b.names := by
  rw [← declares_eq_true_iff, Bool.not_eq_true]

theorem fresh_nil : b.Fresh [] := by
  simp [Fresh]

theorem fresh_singleton : b.Fresh [name] ↔ name ∉ b.names := by
  simp [Fresh]

/-- Binding more names after some others, when the bindings have grown by those. -/
theorem fresh_append {b' : Bindings} (h : ∀ n, n ∈ b'.names ↔ n ∈ b.names ∨ n ∈ ms) :
    b.Fresh (ms ++ ns) ↔ b.Fresh ms ∧ b'.Fresh ns := by
  simp only [Fresh, List.nodup_append, List.mem_append, h, not_or]
  grind

theorem fresh_cons (value : Text) :
    b.Fresh (name :: ns) ↔ name ∉ b.names ∧
      Fresh { b with values := b.values ++ [(name, value)] } ns := by
  rw [← fresh_singleton, ← List.singleton_append]
  refine fresh_append fun n ↦ ?_
  simp only [names, List.map_append, List.mem_append, List.map_singleton]
  tauto

theorem mem_names_declare {d : Declaration} {n : Text} :
    n ∈ (b.declare source interface d).names ↔ n ∈ b.names ∨ n ∈ d.names := by
  cases d with
  | enum name members =>
    simp only [names, declare, Declaration.names, List.map_append, map_fst_entries,
      List.mem_append]
    tauto
  | const name value =>
    simp only [names, declare, Declaration.names, List.map_append, List.mem_append,
      List.map_singleton]
    tauto
  | struct s =>
    simp [names, declare, Declaration.names, or_assoc]

/-- Binding the names of a declaration and then others. -/
theorem fresh_declare {d : Declaration} (source : Text) (interface : Interface) :
    b.Fresh (d.names ++ ns) ↔ b.Fresh d.names ∧ (b.declare source interface d).Fresh ns :=
  fresh_append fun _ ↦ mem_names_declare

theorem bindValue_of_not_mem {t : Token} {value : Text} (h : name ∉ b.names) :
    b.bindValue t name value = .ok { b with values := b.values ++ [(name, value)] } :=
  if_neg (by simp [declares_eq_false_iff.2 h])

theorem bindStruct_of_not_mem {t : Token} {fields : List Field} (h : t.value ∉ b.names) :
    b.bindStruct t fields = .ok { b with structs := b.structs ++ [⟨t.value, fields⟩] } :=
  if_neg (by simp [declares_eq_false_iff.2 h])

theorem bindValue_eq_ok_iff {t : Token} {value : Text} {b' : Bindings} :
    b.bindValue t name value = .ok b' ↔
      name ∉ b.names ∧ b' = { b with values := b.values ++ [(name, value)] } := by
  by_cases h : name ∈ b.names
  · simp [bindValue, declares_eq_true_iff.2 h, h]
  · simp [bindValue_of_not_mem h, h, @eq_comm _ b']

theorem bindStruct_eq_ok_iff {t : Token} {fields : List Field} {b' : Bindings} :
    b.bindStruct t fields = .ok b' ↔
      t.value ∉ b.names ∧ b' = { b with structs := b.structs ++ [⟨t.value, fields⟩] } := by
  by_cases h : t.value ∈ b.names
  · simp [bindStruct, declares_eq_true_iff.2 h, h]
  · simp [bindStruct_of_not_mem h, h, @eq_comm _ b']

end Bindings

/-- A declaration that was read, without the proof that it took tokens. -/
def Declared.outcome {tokens : List Token} (d : Declared tokens) : Bindings × Token × List Token :=
  (d.bindings, d.last, d.rest.val)

/-- The fields that were read, without the proof that tokens were taken. -/
def ReadFields.outcome {tokens : List Token} (r : ReadFields tokens) :
    List Field × Token × List Token :=
  (r.fields, r.last, r.rest.val)

theorem expect_eq_ok_iff {stop t : Token} {kinds : List TokenKind} {tokens rest : List Token}
    {h : rest.length < tokens.length} :
    expect stop kinds tokens = .ok (t, ⟨rest, h⟩) ↔ tokens = t :: rest ∧ t.kind ∈ kinds := by
  cases tokens with
  | nil => simp [expect]
  | cons t' ts =>
    rw [expect]
    simp only [List.cons.injEq]
    split
    · simp only [Except.ok.injEq, Prod.mk.injEq, Subtype.mk.injEq]
      grind
    · grind

theorem expect_cons {stop t : Token} {kinds : List TokenKind} {rest : List Token}
    (h : t.kind ∈ kinds) : expect stop kinds (t :: rest) = .ok (t, ⟨rest, Nat.lt_succ_self _⟩) :=
  if_pos h

theorem getLastD_concat {t last : Token} {ts : List Token} : (ts ++ [last]).getLastD t = last := by
  simp [List.getLastD_eq_getLast?]

section Readers

variable {source : Text} {interface : Interface} {stop last : Token} {b b' : Bindings}
  {name : Text} {position : Nat} {tokens rest ts : List Token} {units : List (List Token)}

/-! ### Enums -/

/-- A member and what follows it. -/
theorem readMembers_cons {t separator : Token} (ht : t.kind = .identifier)
    (hfresh : name ++ '.' :: t.value ∉ b.names)
    (hseparator : separator.kind = .comma ∨ separator.kind = .closeParen) :
    let b' := { b with values := b.values ++ [(name ++ '.' :: t.value, Text.decimal position)] }
    (readMembers stop name position b (t :: separator :: rest)).map Declared.outcome =
      if separator.kind = .closeParen then .ok (b', separator, rest)
      else (readMembers stop name (position + 1) b' rest).map Declared.outcome := by
  rw [readMembers, expect_cons (by simp [ht])]
  dsimp only
  rw [Bindings.bindValue_of_not_mem hfresh, expect_cons (by simpa using hseparator)]
  dsimp only
  split
  · rfl
  · cases readMembers stop name (position + 1) _ rest <;> rfl

theorem readMembers_append {members : List Text} (hts : CommaList units ts)
    (hunits : List.Forall₂ IsMember units members) (hlast : last.kind = .closeParen)
    (hfresh : b.Fresh (members.map fun m ↦ name ++ '.' :: m)) :
    (readMembers stop name position b (ts ++ last :: rest)).map Declared.outcome =
      .ok ({ b with values := b.values ++ Bindings.entries name position members }, last,
        rest) := by
  induction hts generalizing position b members with
  | single =>
    obtain - | ⟨⟨ht⟩, ⟨⟩⟩ := hunits
    rw [List.singleton_append, readMembers_cons ht (Bindings.fresh_singleton.1 hfresh) (.inr hlast),
      if_pos hlast]
    rfl
  | @cons u ts us comma hcomma _ ih =>
    obtain - | @⟨_, member, _, members, ⟨ht⟩, hus⟩ := hunits
    rw [List.map_cons, Bindings.fresh_cons (Text.decimal position)] at hfresh
    rw [List.append_assoc, List.singleton_append, List.cons_append,
      readMembers_cons ht hfresh.1 (.inl hcomma), if_neg (by simp [hcomma]), ih hus hfresh.2,
      Bindings.entries_cons]
    simp

theorem exists_of_readMembers {d : Declared tokens}
    (h : readMembers stop name position b tokens = .ok d) :
    ∃ units members ts, tokens = ts ++ d.last :: d.rest.val ∧ d.last.kind = .closeParen ∧
      CommaList units ts ∧ List.Forall₂ IsMember units members ∧
      b.Fresh (members.map fun m ↦ name ++ '.' :: m) ∧
      d.bindings = { b with values := b.values ++ Bindings.entries name position members } := by
  fun_induction readMembers stop name position b tokens with
  | case1 | case2 | case3 | case5 => cases h
  | case4 position b tokens member rest₁ h₁ hmember b₁ hbind separator rest₂ h₂ hseparator hclose =>
    obtain rfl := Except.ok.inj h
    obtain ⟨rfl, ht⟩ := expect_eq_ok_iff.1 hmember
    obtain ⟨hfresh, rfl⟩ := Bindings.bindValue_eq_ok_iff.1 hbind
    obtain ⟨rfl, -⟩ := expect_eq_ok_iff.1 hseparator
    exact ⟨[[member]], [member.value], [member], rfl, hclose, .single,
      .cons ⟨by simpa using ht⟩ .nil, Bindings.fresh_singleton.2 hfresh, rfl⟩
  | case6 position b tokens member rest₁ h₁ hmember b₁ hbind separator rest₂ h₂ hseparator hclose d'
      hd ih =>
    obtain rfl := Except.ok.inj h
    obtain ⟨rfl, ht⟩ := expect_eq_ok_iff.1 hmember
    obtain ⟨hfresh, rfl⟩ := Bindings.bindValue_eq_ok_iff.1 hbind
    obtain ⟨rfl, hcomma⟩ := expect_eq_ok_iff.1 hseparator
    -- the members behind the comma are numbered on, and fresh behind the first one
    obtain ⟨units, members, ts, htail, hlast, hlist, hmembers, hrest, hbindings⟩ := ih hd
    refine ⟨[member] :: units, member.value :: members, [member] ++ separator :: ts,
      congrArg (member :: separator :: ·) htail, hlast,
      .cons (by simpa [hclose] using hcomma) hlist, .cons ⟨by simpa using ht⟩ hmembers, ?_, ?_⟩
    · rw [List.map_cons, Bindings.fresh_cons (Text.decimal position)]
      exact ⟨hfresh, hrest⟩
    · show d'.bindings = _
      rw [hbindings, Bindings.entries_cons]
      simp

/-! ### Structs -/

theorem readSize_eq_ok_iff {t : Token} {size : Nat} :
    readSize t = .ok size ↔ fieldSize? t.value = some size ∧ 1 ≤ size ∧ size ≤ 32 := by
  have hbounds : ∀ n : Nat,
      (if 1 ≤ n ∧ n ≤ maxSliceBytes then .ok n
        else .error (.located (t.error .fieldSize)) : Except LoweringError Nat) = .ok size ↔
      n = size ∧ 1 ≤ size ∧ size ≤ 32 := by
    intro n
    unfold maxSliceBytes
    split <;> grind
  unfold readSize fieldSize?
  cases Text.dropHead? ['0', 'x'] t.value with
  | some digits => simpa using hbounds (Text.hexNumber digits)
  | none =>
    cases Decimal.readNatural t.value with
    | error => simp [Except.toOption]
    | ok n => simpa [Except.toOption] using hbounds n

theorem nodup_map_append_cons {fields new : List Field} {field : Field} :
    ((fields ++ field :: new).map Field.name).Nodup ↔
      field.name ∉ fields.map Field.name ∧ ((fields ++ [field] ++ new).map Field.name).Nodup := by
  rw [List.append_assoc, List.singleton_append, iff_and_self]
  intro h
  rw [List.map_append, List.map_cons, List.nodup_append] at h
  exact fun hmem ↦ h.2.2 _ hmem _ (by simp) rfl

/-- A field and what follows it. -/
theorem readFields_cons {fields : List Field} {t colon number separator : Token} {field : Field}
    (hfield : IsField [t, colon, number] field) (hfresh : field.name ∉ fields.map Field.name)
    (hseparator : separator.kind = .comma ∨ separator.kind = .closeParen) :
    (readFields stop fields (t :: colon :: number :: separator :: rest)).map ReadFields.outcome =
      if separator.kind = .closeParen then .ok (fields ++ [field], separator, rest)
      else (readFields stop (fields ++ [field]) rest).map ReadFields.outcome := by
  obtain ⟨ht, hcolon, hnumber, hsize, hmin, hmax⟩ := hfield
  have hany : (fields.any fun field ↦ field.name = t.value) = false := by
    simpa using hfresh
  rw [readFields, expect_cons (by simp [ht])]
  dsimp only
  rw [expect_cons (by simp [hcolon])]
  dsimp only
  rw [expect_cons (by simp [hnumber])]
  dsimp only
  rw [readSize_eq_ok_iff.2 ⟨hsize, hmin, hmax⟩]
  dsimp only
  rw [if_neg (by simp [hany]), expect_cons (by simpa using hseparator)]
  dsimp only
  split
  · rfl
  · cases readFields stop _ rest <;> rfl

theorem readFields_append {fields new : List Field} (hts : CommaList units ts)
    (hunits : List.Forall₂ IsField units new) (hlast : last.kind = .closeParen)
    (hnodup : ((fields ++ new).map Field.name).Nodup) :
    (readFields stop fields (ts ++ last :: rest)).map ReadFields.outcome =
      .ok (fields ++ new, last, rest) := by
  induction hts generalizing fields new with
  | single =>
    obtain - | ⟨hfield, ⟨⟩⟩ := hunits
    have hfresh := (nodup_map_append_cons.1 hnodup).1
    -- the unit has to be seen as three tokens, but the field is still needed
    obtain ⟨⟩ := id hfield
    rw [List.cons_append, List.cons_append, List.cons_append, List.nil_append,
      readFields_cons hfield hfresh (.inr hlast), if_pos hlast]
  | @cons u ts us comma hcomma _ ih =>
    obtain - | @⟨_, field, _, new, hfield, hus⟩ := hunits
    have hfresh := nodup_map_append_cons.1 hnodup
    obtain ⟨⟩ := id hfield
    rw [List.append_assoc, List.cons_append, List.cons_append, List.cons_append, List.nil_append,
      List.cons_append, readFields_cons hfield hfresh.1 (.inl hcomma), if_neg (by simp [hcomma]),
      ih hus hfresh.2]
    simp

theorem isField_of_readSize {t colon number : Token} {size : Nat}
    (ht : t.kind ∈ [TokenKind.identifier]) (hcolon : colon.kind ∈ [TokenKind.colon])
    (hnumber : number.kind ∈ [TokenKind.number]) (hsize : readSize number = .ok size) :
    IsField [t, colon, number] ⟨t.value, size⟩ := by
  obtain ⟨hsize, hmin, hmax⟩ := readSize_eq_ok_iff.1 hsize
  exact .mk (by simpa using ht) (by simpa using hcolon) (by simpa using hnumber) hsize hmin hmax

theorem nodup_map_append_singleton {fields : List Field} {field : Field}
    (hnodup : (fields.map Field.name).Nodup)
    (hany : ¬(fields.any fun f ↦ f.name = field.name) = true) :
    ((fields ++ [field]).map Field.name).Nodup := by
  rw [List.map_append, List.nodup_append]
  refine ⟨hnodup, by simp, ?_⟩
  simp only [List.any_eq_true, decide_eq_true_eq, not_exists, not_and] at hany
  grind

theorem exists_of_readFields {fields : List Field} {r : ReadFields tokens}
    (hnodup : (fields.map Field.name).Nodup) (h : readFields stop fields tokens = .ok r) :
    ∃ units new ts, tokens = ts ++ r.last :: r.rest.val ∧ r.last.kind = .closeParen ∧
      CommaList units ts ∧ List.Forall₂ IsField units new ∧ r.fields = fields ++ new ∧
      (r.fields.map Field.name).Nodup := by
  fun_induction readFields stop fields tokens with
  | case1 | case2 | case3 | case4 | case5 | case6 | case8 => cases h
  | case7 fields tokens name rest₁ h₁ hname colon rest₂ h₂ hcolon number rest₃ h₃ hnumber size hsize
      hany separator rest₄ h₄ hseparator fields' =>
    rename_i hclose
    obtain rfl := Except.ok.inj h
    obtain ⟨rfl, hnameKind⟩ := expect_eq_ok_iff.1 hname
    obtain ⟨rfl, hcolonKind⟩ := expect_eq_ok_iff.1 hcolon
    obtain ⟨rfl, hnumberKind⟩ := expect_eq_ok_iff.1 hnumber
    obtain ⟨rfl, -⟩ := expect_eq_ok_iff.1 hseparator
    have hfield := isField_of_readSize hnameKind hcolonKind hnumberKind hsize
    exact ⟨[[name, colon, number]], [⟨name.value, size⟩], [name, colon, number], rfl, hclose,
      .single, .cons hfield .nil, rfl, nodup_map_append_singleton hnodup hany⟩
  | case9 fields tokens name rest₁ h₁ hname colon rest₂ h₂ hcolon number rest₃ h₃ hnumber size hsize
      hany separator rest₄ h₄ hseparator fields' hclose r' hr =>
    rename_i ih
    obtain rfl := Except.ok.inj h
    obtain ⟨rfl, hnameKind⟩ := expect_eq_ok_iff.1 hname
    obtain ⟨rfl, hcolonKind⟩ := expect_eq_ok_iff.1 hcolon
    obtain ⟨rfl, hnumberKind⟩ := expect_eq_ok_iff.1 hnumber
    obtain ⟨rfl, hcomma⟩ := expect_eq_ok_iff.1 hseparator
    have hfield := isField_of_readSize hnameKind hcolonKind hnumberKind hsize
    obtain ⟨units, new, ts, htail, hlast, hlist, hnew, hfields, hall⟩ :=
      ih (nodup_map_append_singleton hnodup hany) hr
    refine ⟨[name, colon, number] :: units, ⟨name.value, size⟩ :: new,
      [name, colon, number] ++ separator :: ts,
      congrArg (name :: colon :: number :: separator :: ·) htail, hlast,
      .cons (by simpa [hclose] using hcomma) hlist, .cons hfield hnew, ?_, hall⟩
    show r'.fields = _
    rw [hfields]
    simp [fields']

/-! ### Any declaration -/

/-- Behind the keyword `t` stand the tokens of a declaration; its names are bound, its last token is
the one that was taken last, and what is behind it is left. -/
def Declared.IsDeclaration {tokens : List Token} (source : Text) (interface : Interface)
    (stop : Token) (b : Bindings) (t : Token) (r : Declared tokens) : Prop :=
  ∃ (d : Declaration) (ds rest : List Token), tokens = ds ++ rest ∧ d.Spells (t :: ds) ∧
    d.EndsBefore (rest.headD stop) ∧ b.Fresh d.names ∧
    r.outcome = (b.declare source interface d, ds.getLastD t, rest)

variable {t : Token} {d : Declaration} {ds : List Token}

theorem isDeclaration_of_readEnum {r : Declared tokens} (ht : t.kind = .enumWord)
    (h : readEnum stop b tokens = .ok r) :
    r.IsDeclaration source interface stop b t := by
  unfold readEnum at h
  split at h
  · cases h
  rename_i name rest₁ h₁ hname
  split at h
  · cases h
  rename_i opening rest₂ h₂ hopening
  split at h
  · cases h
  rename_i r' hmembers
  obtain rfl := Except.ok.inj h
  obtain ⟨rfl, hnameKind⟩ := expect_eq_ok_iff.1 hname
  obtain ⟨rfl, hopeningKind⟩ := expect_eq_ok_iff.1 hopening
  obtain ⟨units, members, ts, htail, hlast, hlist, hunits, hfresh, hbindings⟩ :=
    exists_of_readMembers hmembers
  refine ⟨.enum name.value members, name :: opening :: (ts ++ [r'.last]), r'.rest.val, ?_, ?_,
    trivial, hfresh, ?_⟩
  · simpa using htail
  · exact .enum ht (by simpa using hnameKind) (by simpa using hopeningKind) hlist hunits hlast
  · show (r'.bindings, r'.last, r'.rest.val) = _
    rw [List.getLastD_cons, List.getLastD_cons, getLastD_concat, hbindings]
    rfl

theorem isDeclaration_of_readStruct {r : Declared tokens} (ht : t.kind = .structWord)
    (h : readStruct stop b tokens = .ok r) :
    r.IsDeclaration source interface stop b t := by
  unfold readStruct at h
  split at h
  · cases h
  rename_i name rest₁ h₁ hname
  split at h
  · cases h
  rename_i opening rest₂ h₂ hopening
  split at h
  · cases h
  rename_i r' hfields
  split at h
  · cases h
  rename_i b' hbind
  obtain rfl := Except.ok.inj h
  obtain ⟨rfl, hnameKind⟩ := expect_eq_ok_iff.1 hname
  obtain ⟨rfl, hopeningKind⟩ := expect_eq_ok_iff.1 hopening
  obtain ⟨hfresh, rfl⟩ := Bindings.bindStruct_eq_ok_iff.1 hbind
  obtain ⟨units, new, ts, htail, hlast, hlist, hunits, hnew, hnodup⟩ :=
    exists_of_readFields (by simp) hfields
  refine ⟨.struct ⟨name.value, r'.fields⟩, name :: opening :: (ts ++ [r'.last]), r'.rest.val, ?_,
    ?_, trivial, Bindings.fresh_singleton.2 hfresh, ?_⟩
  · simpa using htail
  · rw [List.nil_append] at hnew
    rw [← hnew] at hunits
    exact .struct ht (by simpa using hnameKind) (by simpa using hopeningKind) hlist hunits hnodup
      hlast
  · rw [List.getLastD_cons, List.getLastD_cons, getLastD_concat]
    rfl

theorem isDeclaration_of_readConst {r : Declared tokens} (ht : t.kind = .constWord)
    (h : readConst source interface stop b tokens = .ok r) :
    r.IsDeclaration source interface stop b t := by
  unfold readConst at h
  split at h
  · cases h
  rename_i name rest₁ h₁ hname
  split at h
  · cases h
  rename_i assign rest₂ h₂ hassign
  split at h
  · cases h
  rename_i value after hvalue
  split at h
  · cases h
  rename_i b' hbind
  obtain rfl := Except.ok.inj h
  obtain ⟨rfl, hnameKind⟩ := expect_eq_ok_iff.1 hname
  obtain ⟨rfl, hassignKind⟩ := expect_eq_ok_iff.1 hassign
  obtain ⟨hfresh, rfl⟩ := Bindings.bindValue_eq_ok_iff.1 hbind
  obtain ⟨htail, hexpression, hnext⟩ := expression_eq_ok_iff.1 hvalue
  refine ⟨.const name.value value, name :: assign :: value, after, ?_, ?_, hnext,
    Bindings.fresh_singleton.2 hfresh, ?_⟩
  · simpa using htail
  · exact .const ht (by simpa using hnameKind) (by simpa using hassignKind) hexpression
  · rw [List.getLastD_cons, List.getLastD_cons]
    rfl

theorem isDeclaration_of_readDeclaration {r : Declared tokens} (ht : t.kind.isDeclaration)
    (h : readDeclaration source interface stop b t tokens = .ok r) :
    r.IsDeclaration source interface stop b t := by
  unfold readDeclaration at h
  split at h
  · rename_i hkind
    cases hread : readEnum stop b tokens with
    | error e => simp [hread, Except.mapError] at h
    | ok r' =>
      rw [hread] at h
      obtain rfl := Except.ok.inj h
      exact isDeclaration_of_readEnum hkind hread
  · rename_i hkind
    exact isDeclaration_of_readConst hkind h
  · rename_i henum hconst
    refine isDeclaration_of_readStruct ?_ h
    simp only [TokenKind.isDeclaration, Bool.or_eq_true, decide_eq_true_eq] at ht
    exact ht.resolve_left fun h ↦ h.elim henum hconst

theorem readEnum_append {name opening closing : Token} {members : List Text}
    (hname : name.kind = .identifier) (hopening : opening.kind = .openParen)
    (hts : CommaList units ts) (hunits : List.Forall₂ IsMember units members)
    (hclosing : closing.kind = .closeParen)
    (hfresh : b.Fresh (members.map fun m ↦ name.value ++ '.' :: m)) :
    (readEnum stop b (name :: opening :: (ts ++ closing :: rest))).map Declared.outcome =
      .ok (b.declare source interface (.enum name.value members), closing, rest) := by
  have hread : (readMembers stop name.value 0 b (ts ++ closing :: rest)).map Declared.outcome =
      .ok (b.declare source interface (.enum name.value members), closing, rest) :=
    readMembers_append hts hunits hclosing hfresh
  obtain ⟨r, hr, hout⟩ := exists_of_map_eq_ok hread
  rw [readEnum, expect_cons (by simp [hname])]
  dsimp only
  rw [expect_cons (by simp [hopening])]
  dsimp only
  rw [hr]
  exact congrArg Except.ok hout

theorem readStruct_append {name opening closing : Token} {fields : List Field}
    (hname : name.kind = .identifier) (hopening : opening.kind = .openParen)
    (hts : CommaList units ts) (hunits : List.Forall₂ IsField units fields)
    (hnodup : (fields.map Field.name).Nodup) (hclosing : closing.kind = .closeParen)
    (hfresh : name.value ∉ b.names) :
    (readStruct stop b (name :: opening :: (ts ++ closing :: rest))).map Declared.outcome =
      .ok (b.declare source interface (.struct ⟨name.value, fields⟩), closing, rest) := by
  have hread : (readFields stop [] (ts ++ closing :: rest)).map ReadFields.outcome =
      .ok (fields, closing, rest) := readFields_append hts hunits hclosing hnodup
  obtain ⟨⟨fields', last', rest', hlen⟩, hr, hout⟩ := exists_of_map_eq_ok hread
  simp only [ReadFields.outcome, Prod.mk.injEq] at hout
  obtain ⟨rfl, rfl, rfl⟩ := hout
  rw [readStruct, expect_cons (by simp [hname])]
  dsimp only
  rw [expect_cons (by simp [hopening])]
  dsimp only
  rw [hr]
  dsimp only
  rw [Bindings.bindStruct_of_not_mem hfresh]
  rfl

theorem readConst_append {name assign : Token} {value : List Token}
    (hname : name.kind = .identifier) (hassign : assign.kind = .assign)
    (hvalue : IsExpression value) (hnext : ExpressionEndsBefore (rest.headD stop) value)
    (hfresh : name.value ∉ b.names) :
    (readConst source interface stop b (name :: assign :: (value ++ rest))).map Declared.outcome =
      .ok (b.declare source interface (.const name.value value), value.getLastD assign, rest) := by
  have hread := expression_eq_ok_iff.2 ⟨rfl, hvalue, hnext⟩
  rw [readConst, expect_cons (by simp [hname])]
  dsimp only
  rw [expect_cons (by simp [hassign])]
  dsimp only
  split
  · rename_i hfails
    rw [hread] at hfails
    cases hfails
  · rename_i value' after hvalue'
    rw [hread] at hvalue'
    obtain ⟨⟩ := hvalue'
    rw [Bindings.bindValue_of_not_mem hfresh]
    rfl

/-- **A declaration is read** from the tokens that spell it. -/
theorem readDeclaration_append (hd : d.Spells (t :: ds)) (hnext : d.EndsBefore (rest.headD stop))
    (hfresh : b.Fresh d.names) :
    (readDeclaration source interface stop b t (ds ++ rest)).map Declared.outcome =
      .ok (b.declare source interface d, ds.getLastD t, rest) := by
  cases hd with
  | @enum _ name opening closing units members ts hkeyword hname hopening hts hunits hclosing =>
    rw [readDeclaration, hkeyword, List.getLastD_cons, List.getLastD_cons, getLastD_concat,
      List.cons_append, List.cons_append, List.append_assoc, List.singleton_append]
    obtain ⟨r, hr, hout⟩ := exists_of_map_eq_ok
      (readEnum_append hname hopening hts hunits hclosing hfresh)
    dsimp only
    rw [hr]
    exact congrArg Except.ok hout
  | @const _ name assign value hkeyword hname hassign hvalue =>
    rw [readDeclaration, hkeyword, List.getLastD_cons, List.getLastD_cons, List.cons_append,
      List.cons_append]
    exact readConst_append hname hassign hvalue hnext (Bindings.fresh_singleton.1 hfresh)
  | @struct _ name opening closing units fields ts hkeyword hname hopening hts hunits hnodup
      hclosing =>
    rw [readDeclaration, hkeyword, List.getLastD_cons, List.getLastD_cons, getLastD_concat,
      List.cons_append, List.cons_append, List.append_assoc, List.singleton_append]
    exact readStruct_append hname hopening hts hunits hnodup hclosing
      (Bindings.fresh_singleton.1 hfresh)

/-! ### Bodies -/

/-- The item that a part of a body is read as. -/
def Part.item : Part → Item
  | .kept token next => .kept token next
  | .declared keyword tail _ => .declared keyword (tail.getLastD keyword)

theorem exists_of_readBody {items : List Item}
    (h : readBody source interface stop b tokens = .ok (b', items)) :
    ∃ parts, IsBody stop tokens parts ∧ items = parts.map Part.item ∧ b.Fresh (namesOf parts) ∧
      b' = b.declareAll source interface (declarationsOf parts) := by
  fun_induction readBody source interface stop b tokens generalizing b' items with
  | case1 b =>
    cases h
    exact ⟨[], .nil, rfl, Bindings.fresh_nil, rfl⟩
  | case2 | case3 | case5 => cases h
  | case4 b t rest ht d hd bound items hrest ih =>
    cases h
    obtain ⟨declaration, ds, rest', rfl, hspells, hnext, hfresh, hout⟩ :=
      isDeclaration_of_readDeclaration ht hd
    simp only [Declared.outcome, Prod.mk.injEq] at hout
    obtain ⟨hbindings, hlast, htail⟩ := hout
    -- the body goes on with what the declaration has bound
    rw [hbindings, htail] at ih hrest
    obtain ⟨parts, hbody, rfl, hparts, rfl⟩ := ih hrest
    refine ⟨.declared t ds declaration :: parts, .declared hspells hnext hbody, ?_, ?_, rfl⟩
    · rw [hlast]
      rfl
    · exact (Bindings.fresh_declare source interface).2 ⟨hfresh, hparts⟩
  | case6 b t rest ht bound items hrest ih =>
    cases h
    obtain ⟨parts, hbody, rfl, hfresh, rfl⟩ := ih hrest
    exact ⟨.kept t (rest.headD stop) :: parts, .kept (by simpa using ht) hbody, rfl, hfresh, rfl⟩

theorem readBody_of_isBody {parts : List Part} (h : IsBody stop tokens parts)
    (hfresh : b.Fresh (namesOf parts)) :
    readBody source interface stop b tokens =
      .ok (b.declareAll source interface (declarationsOf parts), parts.map Part.item) := by
  induction h generalizing b with
  | nil => rw [readBody]; rfl
  | @kept t ts parts ht _ ih =>
    rw [readBody, if_neg (by simp [ht]), ih hfresh]
    rfl
  | @declared t ds ts d parts hd hnext _ ih =>
    have hfresh' := (Bindings.fresh_declare source interface).1 hfresh
    have hread : (readDeclaration source interface stop b t (ds ++ ts)).map Declared.outcome =
        .ok (b.declare source interface d, ds.getLastD t, ts) :=
      readDeclaration_append hd hnext hfresh'.1
    obtain ⟨⟨b', last, rest', hlen⟩, hread, hout⟩ := exists_of_map_eq_ok hread
    simp only [Declared.outcome, Prod.mk.injEq] at hout
    obtain ⟨rfl, rfl, rfl⟩ := hout
    rw [readBody, if_pos hd.isDeclaration, hread]
    dsimp only
    rw [ih hfresh'.2]
    rfl

/-- **Reading a body** succeeds exactly when the body has parts that bind no name twice, and these
parts decide the result. -/
theorem readBody_eq_ok_iff {items : List Item} :
    readBody source interface stop b tokens = .ok (b', items) ↔
      ∃ parts, IsBody stop tokens parts ∧ b.Fresh (namesOf parts) ∧
        items = parts.map Part.item ∧
        b' = b.declareAll source interface (declarationsOf parts) := by
  constructor
  · intro h
    obtain ⟨parts, hbody, hitems, hfresh, hb⟩ := exists_of_readBody h
    exact ⟨parts, hbody, hfresh, hitems, hb⟩
  · rintro ⟨parts, hbody, hfresh, rfl, rfl⟩
    exact readBody_of_isBody hbody hfresh

end Readers

end YulPlus
