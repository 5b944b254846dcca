import YulPlus.Proofs.Lowering.Hashes
import YulPlus.Proofs.Lowering.Program
import YulPlus.Proofs.Lowering.Splice

/-!
# What names stand for

The values of the names of a scope, declaration by declaration: a member of an enum is its number, a
constant is the text of its expression in which the names declared before it, and the hash literals,
are already replaced (`Declaration.values`). `rendered` is this text, token by token and with
everything between two tokens kept.

Lowering has the same values, but takes hashes from the interface and cuts a constant out of the
source with edits. `boundBy_eq` says that this makes no difference for the tokens of a source; it is
where `valueText` is opened, and the last place that it is mentioned. -/

namespace YulPlus

open Text

/-- The text that a token is replaced by, if any: the value of a name, the hash of a literal. -/
def Token.replacement? (values : List (Text × Text)) (t : Token) : Option Text :=
  if t.kind = .identifier then Bindings.value? ⟨values, []⟩ t.value else t.hash?

/-- Where no name has a value, only hash literals are replaced. -/
theorem Token.replacement?_nil (t : Token) : t.replacement? [] = t.hash? := by
  unfold replacement?
  split
  · rename_i hname
    rw [hash?, hname]
    rfl
  · rfl

/-- The source from the offset `o` up to the end of some tokens, with some of these replaced. -/
def rendered (source : Text) (text? : Token → Option Text) (o : Nat) : List Token → Text
  | [] => []
  | t :: ts =>
    slice source o t.start.offset ++ (text? t).getD t.text ++ rendered source text? t.stop ts

/-- The offset of the first of some tokens. -/
def startOf (ts : List Token) : Nat :=
  (ts.head?.map (·.start.offset)).getD 0

/-- The values of the names that a declaration binds, if `values` are those of the names before. -/
def Declaration.values (source : Text) (values : List (Text × Text)) :
    Declaration → List (Text × Text)
  | enum name members => Bindings.entries name 0 members
  | const name value =>
    [(name, rendered source (Token.replacement? values) (startOf value) value)]
  | struct _ => []

/-- The values of the names that some declarations bind, one after the other. -/
def valuesOf (source : Text) (ds : List Declaration) : List (Text × Text) :=
  ds.foldl (fun values d ↦ values ++ d.values source values) []

/-- The struct of a declaration. -/
def Declaration.struct? : Declaration → Option Struct
  | struct s => some s
  | _ => none

/-- The names that the parts of a scope bind. -/
def boundIn (source : Text) (parts : List Part) : Bindings :=
  ⟨valuesOf source (declarationsOf parts), (declarationsOf parts).filterMap Declaration.struct?⟩

/-! ### Edits of tokens -/

section Edits

variable {source : Text} {interface : Interface} {text? : Token → Option Text} {t : Token} {o : Nat}
  {ts : List Token} {b : Bindings}

/-- The edit that replaces a token. -/
def Token.edit? (text? : Token → Option Text) (t : Token) : Option Edit :=
  (text? t).map fun text ↦ ⟨t.start.offset, t.stop, text⟩

theorem Bindings.edit?_eq : b.edit? interface = Token.edit? (b.replacement? interface) :=
  rfl

theorem filterMap_cons_eq {α : Type} (edit? : α → Option Edit) (a : α) (as : List α) :
    (a :: as).filterMap edit? = (edit? a).toList ++ as.filterMap edit? := by
  rw [List.filterMap_cons]
  cases edit? a <;> rfl

/-- The edits of placed tokens are in order. -/
theorem Placed.within (h : Placed source o ts) :
    Edit.Within o (ts.filterMap (Token.edit? text?)) (stopFrom o ts) := by
  induction h with
  | nil => exact .nil le_rfl
  | @cons o t ts ht _ ih =>
    have hstart := ht.le_start
    have hstop := ht.start_lt_stop
    rw [stopFrom_cons]
    cases htext : text? t with
    | none =>
      rw [List.filterMap_cons_none (by simp [Token.edit?, htext])]
      exact ih.mono_left (by omega)
    | some text =>
      have hedit : t.edit? text? = some ⟨t.start.offset, t.stop, text⟩ := by
        simp [Token.edit?, htext]
      rw [List.filterMap_cons_some hedit]
      exact .cons hstart (le_of_lt hstop) (by show o < t.stop; omega) ih

/-- The walk over a token: what stands for it is written, and the rest follows. -/
theorem Token.StandsAfter.applyFrom_eq (ht : t.StandsAfter source o) {es : List Edit} {n : Nat}
    (hes : Edit.Within t.stop es n) :
    Edit.applyFrom o (source.drop o) ((t.edit? text?).toList ++ es) =
      slice source o t.start.offset ++ (text? t).getD t.text ++
        Edit.applyFrom t.stop (source.drop t.stop) es := by
  have hstart := ht.le_start
  have hstop := ht.start_lt_stop
  unfold Token.edit?
  cases text? t with
  | none =>
    show Edit.applyFrom o (source.drop o) es = _
    rw [Edit.applyFrom_drop_skip (by omega) hes, ← slice_append_slice hstart (le_of_lt hstop),
      ht.slice_eq]
    rfl
  | some text => exact Edit.applyFrom_drop_cons hstart (le_of_lt hstop)

/-- **Making the edits of placed tokens** renders them. -/
theorem Placed.applyFrom_eq (h : Placed source o ts) :
    Edit.applyFrom o (source.drop o) (ts.filterMap (Token.edit? text?)) =
      rendered source text? o ts ++ source.drop (stopFrom o ts) := by
  induction h with
  | nil => rfl
  | @cons o t ts ht hts ih =>
    rw [filterMap_cons_eq, ht.applyFrom_eq hts.within, ih, stopFrom_cons, rendered,
      List.append_assoc, List.append_assoc, List.append_assoc]

/-! ### The text of a constant -/

theorem slice_take {s : Text} {a b n : Nat} (h : b ≤ n) : slice (s.take n) a b = slice s a b := by
  rw [slice, slice, List.take_take, Nat.min_eq_left h]

/-- Tokens that stand in a text stand in its beginning, if it reaches far enough. -/
theorem Placed.take {n : Nat} (h : Placed source o ts) (hn : stopFrom o ts ≤ n) :
    Placed (source.take n) o ts := by
  induction h with
  | @nil o ho =>
    have hon : o ≤ n := hn
    exact .nil (by simp; omega)
  | @cons o t ts ht hts ih =>
    rw [stopFrom_cons] at hn
    have hle := hts.le_stopFrom
    have hstop := ht.start_lt_stop
    refine .cons { ht with stop_le := ?_, slice_eq := ?_, gap := ?_ } (ih hn)
    · have := ht.stop_le
      simp
      omega
    · rw [slice_take (by omega), ht.slice_eq]
    · rw [slice_take (by omega)]
      exact ht.gap

theorem rendered_take {n : Nat} (h : Placed source o ts) (hn : stopFrom o ts ≤ n) :
    rendered (source.take n) text? o ts = rendered source text? o ts := by
  induction h with
  | nil => rfl
  | @cons o t ts ht hts ih =>
    rw [stopFrom_cons] at hn
    have hle := hts.le_stopFrom
    have hstop := ht.start_lt_stop
    rw [rendered, rendered, ih hn, slice_take (by omega)]

theorem rendered_append {us : List Token} :
    rendered source text? o (ts ++ us) =
      rendered source text? o ts ++ rendered source text? (stopFrom o ts) us := by
  induction ts generalizing o with
  | nil => rfl
  | cons t ts ih =>
    rw [List.cons_append, rendered, rendered, ih, stopFrom_cons, ← List.append_assoc]

theorem rendered_congr {text?' : Token → Option Text} (h : ∀ t ∈ ts, text? t = text?' t) :
    rendered source text? o ts = rendered source text?' o ts := by
  induction ts generalizing o with
  | nil => rfl
  | cons t ts ih =>
    rw [rendered, rendered, h t (by simp), ih fun u hu ↦ h u (by simp [hu])]

/-- **The value of a constant** is its rendered expression. -/
theorem valueText_eq (h : Placed source (startOf ts) ts) :
    valueText source interface b ts =
      rendered source (b.replacement? interface) (startOf ts) ts := by
  cases ts with
  | nil => rfl
  | cons t ts =>
    have hlast : (t :: ts).getLast? = some (ts.getLastD t) := by
      rw [List.getLast?_cons, List.getLastD_eq_getLast?]
    have hstop := stopFrom_cons_eq t.start.offset t ts
    have htake : ((source.take (ts.getLastD t).stop).drop (ts.getLastD t).stop) = [] := by
      simp
    -- the edits are made on the source up to the last token, and nothing is left behind it
    have h' : Placed source t.start.offset (t :: ts) := h
    rw [valueText, List.head?_cons, hlast]
    show Edit.applyFrom t.start.offset ((source.take (ts.getLastD t).stop).drop t.start.offset) _ =
      rendered source _ t.start.offset _
    rw [Bindings.edit?_eq, (h'.take (le_of_eq hstop)).applyFrom_eq, hstop, htake, List.append_nil,
      rendered_take h' (le_of_eq hstop)]

end Edits

/-! ### The names of a scope -/

section Names

variable {source : Text} {interface : Interface} {o : Nat} {ts inner : List Token}
  {parts : List Part} {ds : List Declaration} {b : Bindings}

theorem Bindings.replacement?_eq {t : Token} (h : interface.hash? t = t.hash?) :
    b.replacement? interface t = Token.replacement? b.values t := by
  rw [replacement?, Token.replacement?, h]
  rfl

/-- A constant whose value stands in the source, and whose hash literals are known. -/
def Declaration.Stands (source : Text) (interface : Interface) : Declaration → Prop
  | const _ value =>
    Placed source (startOf value) value ∧ ∀ t ∈ value, interface.hash? t = t.hash?
  | _ => True

theorem declareAll_eq (h : ∀ d ∈ ds, d.Stands source interface) :
    b.declareAll source interface ds =
      ⟨ds.foldl (fun values d ↦ values ++ d.values source values) b.values,
        b.structs ++ ds.filterMap Declaration.struct?⟩ := by
  induction ds generalizing b with
  | nil => simp [Bindings.declareAll]
  | cons d ds ih =>
    have hrest := fun {b} ↦ @ih b fun d hd ↦ h d (by simp [hd])
    rw [Bindings.declareAll, List.foldl_cons, ← Bindings.declareAll, hrest]
    have hd := h d (by simp)
    cases d with
    | enum name members => rfl
    | const name value =>
      have hvalue : valueText source interface b value =
          rendered source (Token.replacement? b.values) (startOf value) value := by
        rw [valueText_eq hd.1]
        exact rendered_congr fun t ht ↦ Bindings.replacement?_eq (hd.2 t ht)
      simp [Bindings.declare, Declaration.values, Declaration.struct?, List.filterMap_cons, hvalue]
    | struct s => simp [Bindings.declare, Declaration.values, Declaration.struct?]

theorem Token.StandsAfter.self {t : Token} (h : t.StandsAfter source o) :
    t.StandsAfter source t.start.offset :=
  { h with
    le_start := le_rfl
    gap := by
      rw [slice_self]
      exact .nil }

theorem Placed.from_start (h : Placed source o ts) : Placed source (startOf ts) ts := by
  cases h with
  | nil => exact .nil (Nat.zero_le _)
  | cons ht hts => exact .cons ht.self hts

/-- The declarations of a placed body. -/
theorem IsBody.stands {closing : Token} (h : IsBody closing inner parts)
    (hinner : Placed source o inner) (hhash : ∀ t ∈ inner, interface.hash? t = t.hash?) :
    ∀ d ∈ declarationsOf parts, d.Stands source interface := by
  induction h generalizing o with
  | nil => simp [declarationsOf]
  | @kept t ts parts _ _ ih =>
    obtain - | ⟨-, hts⟩ := hinner
    exact ih hts fun u hu ↦ hhash u (by simp [hu])
  | @declared t ds ts d parts hd _ _ ih =>
    obtain - | ⟨-, hrest⟩ := hinner
    obtain ⟨hds, hts⟩ := Placed.append_iff.1 hrest
    intro d' hd'
    rcases List.mem_cons.1 (show d' ∈ d :: declarationsOf parts from hd') with rfl | hd'
    · cases hd with
      | @const _ name assign value =>
        obtain - | ⟨-, - | ⟨-, hvalue⟩⟩ := hds
        exact ⟨hvalue.from_start, fun u hu ↦ hhash u (by simp [hu])⟩
      | _ => trivial
    · exact ih hts (fun u hu ↦ hhash u (by simp [hu])) d' hd'

/-- **The names of a scope** are bound to the same texts, whether hashes are looked up or computed
and whether constants are cut out with edits or rendered. -/
theorem boundBy_eq {closing : Token} (h : IsBody closing inner parts)
    (hinner : Placed source o inner) (hhash : ∀ t ∈ inner, interface.hash? t = t.hash?) :
    boundBy source interface parts = boundIn source parts := by
  rw [boundBy, declareAll_eq (h.stands hinner hhash)]
  rfl

end Names

end YulPlus
