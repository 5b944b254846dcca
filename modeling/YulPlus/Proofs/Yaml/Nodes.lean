import YulPlus.Proofs.Yaml.Fetched
import YulPlus.Yaml.Document

/-!
# Where the scalars of a document come from

Every reader of nodes takes the tokens it reads from the front of what it is given. Of the tokens it
takes none divides documents, and the scalars of the node that it makes of them are among them, but
for the scalars without text that stand for absent nodes. -/

namespace YulPlus

namespace Yaml

namespace Node

variable {t : Token} {tokens rest last : List Token} {ss ss' : List Text} {node : Node}

mutual

/-- The texts of the scalars in a node. -/
def texts : Node → List Text
  | .scalar _ s => [s]
  | .sequence items => textsOfItems items
  | .mapping entries => textsOfEntries entries

/-- The texts of the scalars in nodes in a row. -/
def textsOfItems : List Node → List Text
  | [] => []
  | node :: rest => node.texts ++ textsOfItems rest

/-- The texts of the scalars in keys and values. -/
def textsOfEntries : List (Node × Node) → List Text
  | [] => []
  | (key, value) :: rest => key.texts ++ value.texts ++ textsOfEntries rest

end

/-! ### Taking tokens -/

/-- The tokens in front of `rest` hold no mark, and a scalar for each of the texts that is not
empty. -/
def Takes (tokens rest : List Token) (ss : List Text) : Prop :=
  ∃ taken, tokens = taken ++ rest ∧ .mark ∉ landmarks taken ∧
    ∀ s ∈ ss, s = [] ∨ .scalar s ∈ landmarks taken

theorem Takes.refl (h : ∀ s ∈ ss, s = []) : Takes tokens tokens ss :=
  ⟨[], rfl, List.not_mem_nil, fun s hs ↦ .inl (h s hs)⟩

theorem Takes.nil : Takes tokens tokens [] :=
  .refl (by simp)

theorem Takes.absent : Takes tokens tokens empty.texts :=
  .refl (by simp [empty, Node.texts])

theorem Takes.append (h : Takes tokens rest ss) (h' : Takes rest last ss') :
    Takes tokens last (ss ++ ss') := by
  obtain ⟨taken, rfl, hmark, htexts⟩ := h
  obtain ⟨taken', rfl, hmark', htexts'⟩ := h'
  refine ⟨taken ++ taken', by simp, by simp [hmark, hmark'], ?_⟩
  intro s hs
  rw [landmarks_append]
  rcases List.mem_append.1 hs with hs | hs
  · exact (htexts s hs).imp_right (List.mem_append_left _)
  · exact (htexts' s hs).imp_right (List.mem_append_right _)

theorem Takes.cons (ht : t.landmark? = none) (h : Takes tokens rest ss) :
    Takes (t :: tokens) rest ss := by
  obtain ⟨taken, rfl, hmark, htexts⟩ := h
  have htaken : landmarks (t :: taken) = landmarks taken := by simp [landmarks_cons, ht]
  exact ⟨t :: taken, rfl, htaken ▸ hmark, htaken ▸ htexts⟩

theorem Takes.scalar (plain : Bool) (s : Text) (rest : List Token) :
    Takes (.scalar plain s :: rest) rest [s] := by
  have htaken : landmarks [.scalar plain s] = [.scalar s] := rfl
  exact ⟨[.scalar plain s], rfl, by simp [htaken], by simp [htaken]⟩

/-- The texts of the scalars in a key and its value. -/
def textsOfEntry (entry : Node × Node) : List Text :=
  entry.1.texts ++ entry.2.texts

/-- What a reader makes of tokens has its scalars from the tokens that it takes. -/
def Faithful {α : Type} {p : List Token → Prop} (f : α → List Text) (tokens : List Token)
    (found : Except Fault (α × { rest : List Token // p rest })) : Prop :=
  ∀ a rest, found = .ok (a, rest) → Takes tokens rest.1 (f a)

section

variable {α β : Type} {p q : List Token → Prop} {f : α → List Text} {g : β → List Text}
  {x : Except Fault (α × { rest : List Token // p rest })}

theorem Faithful.error {fault : Fault} : Faithful (p := p) f tokens (.error fault) :=
  nofun

theorem Faithful.ok {a : α} {after : { rest : List Token // p rest }}
    (h : Takes tokens after.1 (f a)) : Faithful f tokens (.ok (a, after)) := by
  rintro a' after' heq
  obtain ⟨rfl, rfl⟩ := Prod.mk.inj (Except.ok.inj heq)
  exact h

/-- A reader goes on behind what another one has taken. -/
theorem Faithful.bind {k : α × { rest : List Token // p rest } →
      Except Fault (β × { rest : List Token // q rest })}
    (hx : Faithful f rest x)
    (hk : ∀ a after h, Takes rest after (f a) → Faithful g tokens (k (a, ⟨after, h⟩))) :
    Faithful g tokens (x >>= k) := by
  intro b last h
  obtain ⟨⟨a, after, hafter⟩, hfound, h⟩ := bind_eq_ok_iff.1 h
  exact hk a after hafter (hx _ _ hfound) b last h

end

/-! ### Readers

Every reader has its scalars from the tokens that it takes. The theorems call each other as the
readers do. -/

mutual

theorem faithful_read (place : Place) (tokens : List Token) :
    Faithful texts tokens (read place tokens) := by
  rw [read.eq_def]
  split
  · exact .ok (.scalar _ _ _)
  · next rest => exact (faithful_readFlowItems true rest).bind fun _ _ _ h ↦ .ok (h.cons rfl)
  · next rest => exact (faithful_readFlowEntries true rest).bind fun _ _ _ h ↦ .ok (h.cons rfl)
  · next rest =>
    split
    · exact .error
    · exact (faithful_readItems rest).bind fun _ _ _ h ↦ .ok (h.cons rfl)
  · next rest =>
    split
    · exact .error
    · exact (faithful_readEntries rest).bind fun _ _ _ h ↦ .ok (h.cons rfl)
  · next rest =>
    split
    · exact (faithful_readLooseItems rest).bind fun _ _ _ h ↦ .ok (h.cons rfl)
    · exact .error
  · exact .error
termination_by (tokens.length, 0)

theorem faithful_readUnless (ends : Token → Bool) (place : Place) (tokens : List Token) :
    Faithful texts tokens (readUnless ends place tokens) := by
  rw [readUnless]
  split
  · exact .ok .absent
  · exact (faithful_read place tokens).bind fun _ _ _ h ↦ .ok h
termination_by (tokens.length, 1)

theorem faithful_readItems (tokens : List Token) :
    Faithful textsOfItems tokens (readItems tokens) := by
  rw [readItems.eq_def]
  split
  · exact .ok (Takes.nil.cons rfl)
  · next rest =>
    refine (faithful_readUnless endsItem .block rest).bind fun item after hafter hitem ↦ ?_
    refine (faithful_readItems after).bind fun items last _ hitems ↦ .ok ?_
    exact (hitem.append hitems).cons rfl
  · exact .error
termination_by (tokens.length, 0)
decreasing_by all_goals grind

theorem faithful_readLooseItems (tokens : List Token) :
    Faithful textsOfItems tokens (readLooseItems tokens) := by
  rw [readLooseItems]
  refine (faithful_readUnless endsLooseItem .block tokens).bind fun item after hafter hitem ↦ ?_
  dsimp only
  split
  · next rest _ =>
    refine (faithful_readLooseItems rest).bind fun items last _ hitems ↦ .ok ?_
    exact hitem.append (hitems.cons rfl)
  · exact .ok (hitem.append .nil)
termination_by (tokens.length, 2)

theorem faithful_readEntries (tokens : List Token) :
    Faithful textsOfEntries tokens (readEntries tokens) := by
  rw [readEntries.eq_def]
  split
  · exact .ok (Takes.nil.cons rfl)
  · next rest =>
    refine (faithful_readUnless endsEntry .blockValue rest).bind fun key after hafter hkey ↦ ?_
    dsimp only
    split
    · next more _ =>
      refine (faithful_readUnless endsEntry .blockValue more).bind fun value behind _ hvalue ↦ ?_
      refine (faithful_readEntries behind).bind fun entries last _ hentries ↦ .ok ?_
      exact ((hkey.append (hvalue.cons rfl)).append hentries).cons rfl
    · refine (faithful_readEntries after).bind fun entries last _ hentries ↦ .ok ?_
      exact ((hkey.append .absent).append hentries).cons rfl
  · exact .error
termination_by (tokens.length, 0)
decreasing_by all_goals grind

theorem faithful_readFlowItems (first : Bool) (tokens : List Token) :
    Faithful textsOfItems tokens (readFlowItems first tokens) := by
  rw [readFlowItems.eq_def]
  split
  · exact .error
  · exact .ok (Takes.nil.cons rfl)
  · next t rest _ =>
    split
    · refine (faithful_readFlowItem (t :: rest)).bind fun item after hafter hitem ↦ ?_
      refine (faithful_readFlowItems false after).bind fun items last _ hitems ↦ .ok ?_
      exact hitem.append hitems
    split
    · next ht =>
      subst ht
      split
      · exact .ok ((Takes.nil.cons rfl).cons rfl)
      · refine (faithful_readFlowItem rest).bind fun item after hafter hitem ↦ ?_
        refine (faithful_readFlowItems false after).bind fun items last _ hitems ↦ .ok ?_
        exact (hitem.append hitems).cons rfl
    · exact .error
termination_by (tokens.length, 3)
decreasing_by all_goals grind

theorem faithful_readFlowItem (tokens : List Token) :
    Faithful texts tokens (readFlowItem tokens) := by
  rw [readFlowItem.eq_def]
  split
  · next rest =>
    refine (faithful_readUnless _ _ rest).bind fun key after hafter hkey ↦ ?_
    dsimp only
    split
    · next more _ =>
      refine (faithful_readUnless _ _ more).bind fun value last _ hvalue ↦ .ok ?_
      exact ((hkey.append (hvalue.cons rfl)).append .nil).cons rfl
    · exact .ok (((hkey.append .absent).append .nil).cons rfl)
  · exact faithful_read .flow tokens
termination_by (tokens.length, 2)
decreasing_by all_goals grind

theorem faithful_readFlowEntries (first : Bool) (tokens : List Token) :
    Faithful textsOfEntries tokens (readFlowEntries first tokens) := by
  rw [readFlowEntries.eq_def]
  split
  · exact .error
  · exact .ok (Takes.nil.cons rfl)
  · next t rest _ =>
    split
    · refine (faithful_readFlowEntry (t :: rest)).bind fun entry after hafter hentry ↦ ?_
      refine (faithful_readFlowEntries false after).bind fun entries last _ hentries ↦ .ok ?_
      exact hentry.append hentries
    split
    · next ht =>
      subst ht
      split
      · exact .ok ((Takes.nil.cons rfl).cons rfl)
      · refine (faithful_readFlowEntry rest).bind fun entry after hafter hentry ↦ ?_
        refine (faithful_readFlowEntries false after).bind fun entries last _ hentries ↦ .ok ?_
        exact (hentry.append hentries).cons rfl
    · exact .error
termination_by (tokens.length, 3)
decreasing_by all_goals grind

theorem faithful_readFlowEntry (tokens : List Token) :
    Faithful textsOfEntry tokens (readFlowEntry tokens) := by
  rw [readFlowEntry.eq_def]
  split
  · next rest =>
    refine (faithful_readUnless _ _ rest).bind fun key after hafter hkey ↦ ?_
    dsimp only
    split
    · next more _ =>
      refine (faithful_readUnless _ _ more).bind fun value last _ hvalue ↦ .ok ?_
      exact (hkey.append (hvalue.cons rfl)).cons rfl
    · exact .ok ((hkey.append .absent).cons rfl)
  · exact (faithful_read .flow tokens).bind fun _ _ _ h ↦ .ok (h.append .absent)
termination_by (tokens.length, 2)
decreasing_by all_goals grind

end

/-! ### Documents -/

/-- Only marks follow a document. -/
theorem landmarks_of_checkEnd (h : checkEnd tokens = .ok ()) :
    ∀ l ∈ landmarks tokens, l = .mark := by
  fun_induction checkEnd tokens with
  | case1 => simp
  | case2 rest ih => simpa [landmarks_cons, Token.landmark?] using ih h
  | case3 => cases h

/-- A document is taken up to marks. -/
theorem takes_of_readDocument (h : readDocument tokens = .ok node) :
    ∃ rest, Takes tokens rest node.texts ∧ ∀ l ∈ landmarks rest, l = .mark := by
  unfold readDocument at h
  split at h
  · obtain rfl := Except.ok.inj h
    exact ⟨[], .absent, by simp⟩
  · next rest =>
    obtain ⟨⟨⟩, hend, h⟩ := bind_eq_ok_iff.1 h
    obtain rfl := Except.ok.inj h
    exact ⟨_, .absent, by simpa [landmarks_cons, Token.landmark?] using landmarks_of_checkEnd hend⟩
  · obtain ⟨⟨node', after, hafter⟩, hread, h⟩ := bind_eq_ok_iff.1 h
    obtain ⟨⟨⟩, hend, h⟩ := bind_eq_ok_iff.1 h
    obtain rfl := Except.ok.inj h
    exact ⟨after, faithful_read _ _ _ _ hread, landmarks_of_checkEnd hend⟩

/-- **Of what is behind a mark, nothing is read** in a text that does not begin with a mark, and the
scalars of a document come from its tokens. -/
theorem landmarks_of_readStream {first : Text} {ls : List Landmark}
    (h : readStream tokens = .ok node) (hfirst : landmarks tokens = .scalar first :: ls) :
    (∀ s, ¬ [.mark, .scalar s].Sublist (landmarks tokens)) ∧
      ∀ s ∈ node.texts, s = [] ∨ .scalar s ∈ landmarks tokens := by
  have hdocument : readDocument tokens = .ok node := by
    unfold readStream at h
    split at h
    · cases hfirst
    · simp [landmarks_cons, Token.landmark?] at hfirst
    · cases h
    · exact h
  obtain ⟨rest, ⟨taken, rfl, hmark, htexts⟩, hrest⟩ := takes_of_readDocument hdocument
  rw [landmarks_append]
  refine ⟨fun s hsub ↦ ?_, fun s hs ↦ (htexts s hs).imp_right (List.mem_append_left _)⟩
  obtain ⟨front, behind, heq, hfront, hbehind⟩ := List.sublist_append_iff.1 hsub
  cases front with
  | nil =>
    obtain rfl : [Landmark.mark, .scalar s] = behind := heq
    cases hrest (.scalar s) (hbehind.subset (by simp))
  | cons l front =>
    obtain ⟨rfl, -⟩ := List.cons.inj heq
    exact hmark (hfront.subset (by simp))

end Node

/-! ### Values -/

variable {s : Text} {node : Node} {key : Scalar} {value : Value} {entries : List (Node × Node)}
  {pairs : List (Scalar × Value)}

/-- A plain scalar that means a text means its own. -/
theorem eq_of_ofPlain {s' : Text} (h : ofPlain s = .ok (.text s')) : s' = s := by
  unfold ofPlain at h
  split at h
  · next scalar hfind =>
    have hword := List.mem_of_find?_eq_some hfind
    obtain rfl := Except.ok.inj h
    simp [words] at hword
  · split at h
    dsimp only at h
    split at h
    · cases h
    · split at h <;> cases h
    · exact (Scalar.text.inj (Except.ok.inj h)).symm

theorem mem_texts_of_valueOfNode (h : valueOfNode node = .ok (.text s)) : s ∈ node.texts := by
  cases node with
  | scalar plain s' =>
    cases plain with
    | false =>
      rw [valueOfNode] at h
      obtain ⟨⟩ := Except.ok.inj h
      exact List.mem_singleton_self s
    | true =>
      rw [valueOfNode] at h
      split at h
      · cases h
      · split at h
        · cases h
        · next scalar hplain =>
          obtain ⟨⟩ := Except.ok.inj h
          exact List.mem_singleton.2 (eq_of_ofPlain hplain)
  | sequence items =>
    rw [valueOfNode] at h
    split at h <;> cases h
  | mapping entries =>
    rw [valueOfNode] at h
    split at h <;> cases h

/-- A text that is written as a value is a scalar of its mapping. -/
theorem mem_texts_of_entriesOfNodes (h : entriesOfNodes entries = .ok pairs)
    (hmem : (key, .text s) ∈ pairs) : s ∈ Node.textsOfEntries entries := by
  induction entries generalizing pairs with
  | nil =>
    rw [entriesOfNodes] at h
    obtain rfl := Except.ok.inj h
    cases hmem
  | cons entry entries ih =>
    rw [entriesOfNodes] at h
    split at h
    · cases h
    · cases h
    · cases h
    · next k v pairs' hkey hvalue hpairs =>
      obtain rfl := Except.ok.inj h
      rcases List.mem_cons.1 hmem with heq | hmem
      · obtain ⟨rfl, rfl⟩ := Prod.mk.inj heq
        exact List.mem_append_left _ (List.mem_append_right _ (mem_texts_of_valueOfNode hvalue))
      · exact List.mem_append_right _ (ih hpairs hmem)

theorem mem_of_mem_insert {done : List (Scalar × Value)} {entry : Scalar × Value}
    (h : entry ∈ Value.insert key value done) : entry.2 = value ∨ entry ∈ done := by
  fun_induction Value.insert key value done with
  | case1 => exact .inl (congrArg Prod.snd (List.mem_singleton.1 h))
  | case2 key' value' rest hsame =>
    rcases List.mem_cons.1 h with rfl | h
    · exact .inl rfl
    · exact .inr (List.mem_cons_of_mem _ h)
  | case3 key' value' rest hsame ih =>
    rcases List.mem_cons.1 h with rfl | h
    · exact .inr List.mem_cons_self
    · exact (ih h).imp_right (List.mem_cons_of_mem _)

/-- A value of a map was written as one of its values. -/
theorem exists_of_mem_ofEntries (h : (key, value) ∈ Value.ofEntries pairs) :
    ∃ key', (key', value) ∈ pairs := by
  suffices hfold : ∀ done,
      (key, value) ∈ pairs.foldl (fun done pair ↦ Value.insert pair.1 pair.2 done) done →
        (∃ key', (key', value) ∈ pairs) ∨ (key, value) ∈ done from
    (hfold [] h).resolve_right List.not_mem_nil
  clear h
  induction pairs with
  | nil => exact fun _ ↦ .inr
  | cons pair pairs ih =>
    intro done hmem
    rcases ih _ hmem with ⟨key', hkey⟩ | hmem
    · exact .inl ⟨key', List.mem_cons_of_mem _ hkey⟩
    · rcases mem_of_mem_insert hmem with rfl | hmem
      · exact .inl ⟨pair.1, List.mem_cons_self⟩
      · exact .inr hmem

/-- **A text that a document has for the value of a key is a scalar of it.** -/
theorem mem_texts_of_map (h : valueOfNode node = .ok (.map pairs)) (hmem : (key, .text s) ∈ pairs) :
    s ∈ node.texts := by
  cases node with
  | scalar plain s' =>
    cases plain <;> rw [valueOfNode] at h
    · cases h
    · split at h
      · cases h
      · split at h <;> cases h
  | sequence items =>
    rw [valueOfNode] at h
    split at h <;> cases h
  | mapping entries =>
    rw [valueOfNode] at h
    split at h
    · cases h
    · next written hwritten =>
      obtain ⟨⟩ := Except.ok.inj h
      obtain ⟨key', hkey⟩ := exists_of_mem_ofEntries hmem
      exact mem_texts_of_entriesOfNodes hwritten hkey

end Yaml

end YulPlus
