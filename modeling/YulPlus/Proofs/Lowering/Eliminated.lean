import Mathlib.Data.List.Nodup
import YulPlus.Proofs.Lowering.Provided

/-!
# Declared names are eliminated

The members of enums and the constants of a scope are replaced where they are used, and their
declarations are taken out. So what becomes of the scope should not mention them any more, apart
from the functions that are inserted into it.

There is one way in which it does. The value of a constant is made when its declaration is read, and
it is not looked at again. If the expression uses a name that is bound later, or the name of the
constant itself, then this name is not known yet and stays in the value: the constant `Leaves` it,
and so does every constant that uses this one. The name `Survives` if such a constant is used in the
scope, and it is exactly the names which survive that are read in the lowered scope
(`lower_eliminates`). None does if every declaration uses only names that are bound before it
(`Ordered.not_survives`), but nothing asks for this order (`lower_leaves_later`). -/

namespace YulPlus

open Text

/-- In the value of the constant `c` the declarations leave the name as it is. -/
inductive Leaves : List Declaration → Text → Text → Prop
  /-- The expression uses the name, and it is not bound by then. -/
  | late {front back : List Declaration} {c : Text} {value : List Token} {t : Token}
      (ht : t ∈ value) (hkind : t.kind = .identifier) (hlate : t.value ∉ boundNames front) :
      Leaves (front ++ .const c value :: back) c t.value
  /-- The expression uses an earlier constant in whose value the name is left. -/
  | earlier {front back : List Declaration} {c name : Text} {value : List Token} {t : Token}
      (ht : t ∈ value) (hkind : t.kind = .identifier) (hleaves : Leaves front t.value name) :
      Leaves (front ++ .const c value :: back) c name

/-- Outside of its declarations, the scope uses a constant in whose value the name is left. -/
def Survives (parts : List Part) (name : Text) : Prop :=
  ∃ t next, .kept t next ∈ parts ∧ t.kind = .identifier ∧
    Leaves (declarationsOf parts) t.value name

/-- No declaration uses a name that is bound after it or by itself. -/
def Ordered (ds : List Declaration) : Prop :=
  ∀ front c value back, ds = front ++ .const c value :: back → ∀ t ∈ value,
    t.kind = .identifier → t.value ∈ boundNames ds → t.value ∈ boundNames front

/-- In what a scope becomes, the offset behind the opening brace and the inserted functions. -/
def bodyStart (source : Text) (opening : Token) (parts : List Part) : Nat :=
  (opening.text ++ insertedText source parts).length

section

variable {source name c : Text} {parts : List Part} {inner : List Token}
  {opening closing t : Token} {ds front back : List Declaration} {o : Nat}
  {ws : List (TokenKind × Text)} {wss : List (List (TokenKind × Text))}
  {meanings : List (Text × List (TokenKind × Text))} {functions : List Text}

/-! ### Names that are left -/

theorem Leaves.append (h : Leaves ds c name) (more : List Declaration) :
    Leaves (ds ++ more) c name := by
  cases h with
  | late ht hkind hlate =>
    rw [List.append_assoc]
    exact .late ht hkind hlate
  | earlier ht hkind hleaves =>
    rw [List.append_assoc]
    exact .earlier ht hkind hleaves

/-- A name in the meaning of a constant has been left there. -/
theorem leaves_of_mem_meaningsOf (h : (c, ws) ∈ meaningsOf ds) (hmem : (.identifier, name) ∈ ws) :
    Leaves ds c name := by
  induction ds using List.reverseRecOn generalizing c ws with
  | nil => cases h
  | append_singleton ds d ih =>
    rw [meaningsOf_append_singleton] at h
    rcases List.mem_append.1 h with h | h
    · exact (ih h hmem).append [d]
    cases d with
    | enum n members =>
      obtain ⟨e, -, he⟩ := List.mem_map.1 h
      obtain ⟨-, rfl⟩ := Prod.mk.inj he
      simp at hmem
    | const n value =>
      obtain ⟨rfl, rfl⟩ := Prod.mk.inj (List.mem_singleton.1 h)
      obtain ⟨t, ht, hmem⟩ := List.mem_flatMap.1 hmem
      obtain ⟨hkind, ⟨ws, hws, hmem⟩ | ⟨rfl, -, hfree⟩⟩ := Token.mem_expansion_cases hmem
      · exact .earlier ht hkind (ih hws hmem)
      · refine .late ht hkind fun hbound ↦ ?_
        rw [← map_fst_meaningsOf] at hbound
        obtain ⟨m, hm, hname⟩ := List.mem_map.1 hbound
        exact hfree m hm hname
    | struct s => cases h

/-- A name with one meaning stands for it. -/
theorem Token.expansion_of_mem (hnodup : (meanings.map Prod.fst).Nodup)
    (hkind : t.kind = .identifier) (h : (t.value, ws) ∈ meanings) : t.expansion meanings = ws := by
  rw [expansion, if_pos hkind]
  cases hfind : meanings.find? fun entry ↦ entry.1 = t.value with
  | none => simpa using List.find?_eq_none.1 hfind _ h
  | some m =>
    have hm : m.1 = t.value := by simpa using List.find?_some hfind
    obtain rfl := List.inj_on_of_nodup_map hnodup (List.mem_of_find?_eq_some hfind) h hm
    rfl

theorem Token.expansion_of_notMem (hkind : t.kind = .identifier)
    (h : t.value ∉ meanings.map Prod.fst) : t.expansion meanings = [t.reading] := by
  rw [expansion, if_pos hkind]
  cases hfind : meanings.find? fun entry ↦ entry.1 = t.value with
  | none => rfl
  | some m =>
    have hm : m.1 = t.value := by simpa using List.find?_some hfind
    exact absurd (List.mem_map.2 ⟨m, List.mem_of_find?_eq_some hfind, hm⟩) h

theorem boundNames_append (front back : List Declaration) :
    boundNames (front ++ back) = boundNames front ++ boundNames back :=
  List.flatMap_append

/-- The meanings of the names are not changed by more declarations. -/
theorem mem_meaningsOf_append {m : Text × List (TokenKind × Text)} (h : m ∈ meaningsOf front) :
    m ∈ meaningsOf (front ++ back) := by
  induction back using List.reverseRecOn with
  | nil => rwa [List.append_nil]
  | append_singleton back d ih =>
    rw [← List.append_assoc, meaningsOf_append_singleton]
    exact List.mem_append_left _ ih

theorem mem_meaningsOf_const (front back : List Declaration) (c : Text) (value : List Token) :
    (c, value.flatMap (Token.expansion (meaningsOf front))) ∈
      meaningsOf (front ++ .const c value :: back) := by
  have hfront : (c, value.flatMap (Token.expansion (meaningsOf front))) ∈
      meaningsOf (front ++ [.const c value]) := by
    rw [meaningsOf_append_singleton]
    exact List.mem_append_right _ (List.mem_singleton.2 rfl)
  have hall : _ ∈ meaningsOf (front ++ [.const c value] ++ back) := mem_meaningsOf_append hfront
  rwa [List.append_assoc] at hall

/-- A name that is left stands in the meaning of the constant. -/
theorem Leaves.exists_mem_meaningsOf (h : Leaves ds c name) (hnodup : (boundNames ds).Nodup) :
    ∃ ws, (c, ws) ∈ meaningsOf ds ∧ (.identifier, name) ∈ ws := by
  induction h with
  | @late front back c value t ht hkind hlate =>
    refine ⟨_, mem_meaningsOf_const front back c value, List.mem_flatMap.2 ⟨t, ht, ?_⟩⟩
    rw [Token.expansion_of_notMem hkind (by rwa [map_fst_meaningsOf]), Token.reading, hkind]
    exact List.mem_singleton.2 rfl
  | @earlier front back c name value t ht hkind _ ih =>
    rw [boundNames_append] at hnodup
    have hfront := (List.nodup_append.1 hnodup).1
    obtain ⟨ws, hws, hmem⟩ := ih hfront
    refine ⟨_, mem_meaningsOf_const front back c value, List.mem_flatMap.2 ⟨t, ht, ?_⟩⟩
    rwa [Token.expansion_of_mem (by rwa [map_fst_meaningsOf]) hkind hws]

/-- What is left in declarations that are in order is not bound by them. -/
theorem Leaves.notMem_boundNames {names : List Text} (h : Leaves ds c name)
    (hordered : ∀ front c value back, ds = front ++ .const c value :: back → ∀ t ∈ value,
      t.kind = .identifier → t.value ∈ names → t.value ∈ boundNames front) : name ∉ names := by
  induction h with
  | late ht hkind hlate => exact fun hname ↦ hlate (hordered _ _ _ _ rfl _ ht hkind hname)
  | @earlier _ more c' _ value' _ _ _ _ ih =>
    refine ih fun front c value back hfront ↦
      hordered front c value (back ++ .const c' value' :: more) ?_
    rw [hfront, List.append_assoc]
    rfl

/-- **If the declarations are in order**, then no name that they bind survives. -/
theorem Ordered.not_survives (h : Ordered (declarationsOf parts))
    (hname : name ∈ boundNames (declarationsOf parts)) : ¬ Survives parts name := by
  rintro ⟨t, next, -, -, hleaves⟩
  exact hleaves.notMem_boundNames h hname

/-! ### Names in the expansion -/

theorem exists_kept_of_mem_expansion
    (h : (.identifier, name) ∈ parts.flatMap (Part.expansion meanings)) :
    ∃ t next, .kept t next ∈ parts ∧ (.identifier, name) ∈ t.expansion meanings := by
  obtain ⟨p, hp, hmem⟩ := List.mem_flatMap.1 h
  cases p with
  | kept t next => exact ⟨t, next, hp, hmem⟩
  | declared => cases hmem

/-- **A bound name in the expansion of a scope survives.** -/
theorem survives_of_mem_expansion (hname : name ∈ boundNames (declarationsOf parts))
    (h : (.identifier, name) ∈
      parts.flatMap (Part.expansion (meaningsOf (declarationsOf parts)))) :
    Survives parts name := by
  obtain ⟨t, next, ht, hmem⟩ := exists_kept_of_mem_expansion h
  obtain ⟨hkind, ⟨ws, hws, hmem⟩ | ⟨rfl, -, hfree⟩⟩ := Token.mem_expansion_cases hmem
  · exact ⟨t, next, ht, hkind, leaves_of_mem_meaningsOf hws hmem⟩
  · rw [← map_fst_meaningsOf] at hname
    obtain ⟨m, hm, heq⟩ := List.mem_map.1 hname
    exact absurd heq (hfree m hm)

/-- **A name that survives** stands in the expansion of the scope. -/
theorem Survives.mem_expansion (h : Survives parts name)
    (hnodup : (boundNames (declarationsOf parts)).Nodup) :
    (.identifier, name) ∈ parts.flatMap (Part.expansion (meaningsOf (declarationsOf parts))) := by
  obtain ⟨t, next, ht, hkind, hleaves⟩ := h
  obtain ⟨ws, hws, hmem⟩ := hleaves.exists_mem_meaningsOf hnodup
  refine List.mem_flatMap.2 ⟨_, ht, ?_⟩
  rwa [Part.expansion, Token.expansion_of_mem (by rwa [map_fst_meaningsOf]) hkind hws]

/-- Names that are not declared twice are not bound twice. -/
theorem nodup_boundNames (h : (namesOf parts).Nodup) :
    (boundNames (declarationsOf parts)).Nodup := by
  refine h.sublist ?_
  rw [namesOf, boundNames]
  induction declarationsOf parts with
  | nil => exact .slnil
  | cons d ds ih =>
    rw [List.flatMap_cons, List.flatMap_cons]
    refine List.Sublist.append ?_ ih
    cases d with
    | struct => exact List.nil_sublist _
    | _ => exact List.Sublist.refl _

/-! ### Behind the inserted functions -/

/-- Functions on lines of their own keep apart what stands behind them. -/
theorem separates_joinWith (h : List.Forall₂ Lexes functions wss) :
    Separates (joinWith ['\n'] functions ++ ['\n']) := by
  induction h with
  | nil => exact separates_of_spelling fun _ ↦ .layout (by decide)
  | @cons f ws functions wss hf hrest ih =>
    cases hrest with
    | nil => exact hf.separates
    | cons =>
      rw [joinWith_cons_cons, List.append_assoc]
      exact hf.separates.append ih

/-- No token reaches across the end of the inserted functions. -/
theorem separates_insertedText (hopening : opening.StandsAfter source o)
    (hkind : opening.kind = .openBrace)
    (hfunctions : List.Forall₂ Lexes (scopeHelpers (boundIn source parts) (parts.map Part.item))
      wss) :
    Separates (opening.text ++ insertedText source parts) := by
  obtain ⟨r, hr⟩ := hopening.spelling
  rw [hkind] at hr
  have hopen : Separates opening.text := by
    rw [hr.eq_symbol rfl]
    exact separates_of_spelling fun _ ↦ .symbol rfl nofun
  refine hopen.append ?_
  unfold insertedText
  split
  · exact separates_nil
  · have hfeed : Separates ['\n'] := separates_of_spelling fun _ ↦ .layout (by decide)
    exact hfeed.append (separates_joinWith hfunctions)

/-- **What is read behind the inserted functions**: no token reaches across their end, and those
behind it are the expansions of the parts, up to pieces that are joined. -/
theorem IsBody.exists_read {out : List Token} (hbody : IsBody closing inner parts)
    (hplaced : Placed source o (Section.scope opening parts closing).tokens)
    (hinner : Placed source opening.stop inner) (hends : ∀ t ∈ inner, t.EndsIn source)
    (hopen : opening.kind = .openBrace) (hclose : closing.kind = .closeBrace)
    (hout : tokenize (scopeText source opening parts closing) = .ok out) :
    ∃ front back vs, out = front ++ back ∧
      (∀ t ∈ front, t.stop ≤ bodyStart source opening parts) ∧
      (∀ t ∈ back, bodyStart source opening parts ≤ t.start.offset) ∧
      back.map Token.reading = vs ++ [endReading] ∧
      Coarsens (parts.flatMap (Part.expansion (meaningsOf (declarationsOf parts))) ++
        [closing.reading]) vs := by
  obtain ⟨wss, hfunctions⟩ := hbody.exists_lexes hinner
  have hpieced := pieced_bodyText hbody hplaced hends hclose
  have hseparates : Separates (opening.text ++ insertedText source parts) := by
    obtain ⟨hopening, -, -⟩ := Section.placed_scope_iff.1 hplaced
    exact separates_insertedText hopening hopen hfunctions
  have hall := tokenized_of_tokenizeFrom hout
  rw [scopeText_eq, ← List.append_assoc] at hall
  obtain ⟨front, back, rfl, hfront, hback⟩ := hseparates hall
  have hoffset : (Position.start.after (opening.text ++ insertedText source parts)).offset =
      bodyStart source opening parts := by
    rw [Position.after_offset, bodyStart]
    exact Nat.zero_add _
  have hstart := hback.le_start
  rw [hoffset] at hfront hstart
  obtain ⟨vs, hvs, hreadings⟩ := hback.exists_lexes
  exact ⟨front, back, vs, rfl, hfront, hstart, hreadings, hpieced.coarsens hvs⟩

/-! ### Scopes -/

/-- **Declared names are eliminated.** Behind the functions that are inserted into it, a lowered
scope mentions a member of an enum or a constant of the scope only if the name survives. If it
does then the scope mentions it, unless the name could be taken for the digits of a number or for
the frame of a hash literal. -/
theorem lower_eliminates {tokens before after : List Token} {r : Lowered}
    (htokens : tokenize source = .ok tokens) (h : lower source = .ok r)
    (heq : tokens = before ++ opening :: (inner ++ closing :: after))
    (hscope : IsScope (Segment.usesObjects tokens) before opening inner closing after) :
    ∃ parts, IsBody closing inner parts ∧
      LowersSlice source r opening.start.offset closing.stop
        (scopeText source opening parts closing) ∧
      ∀ out, tokenize (scopeText source opening parts closing) = .ok out →
        (∀ t ∈ out, t.stop ≤ bodyStart source opening parts ∨
          bodyStart source opening parts ≤ t.start.offset) ∧
        (∀ t ∈ out, t.kind = .identifier → bodyStart source opening parts ≤ t.start.offset →
          t.value ∈ boundNames (declarationsOf parts) → Survives parts t.value) ∧
        ∀ name, Survives parts name → (∃ c ∈ name, isHexDigit c = false) →
          TokenKind.ofFrame? name = none →
            ∃ t ∈ out, t.kind = .identifier ∧ t.value = name ∧
              bodyStart source opening parts ≤ t.start.offset := by
  obtain ⟨parts, o, hbody, hnodup, hplaced, hinner, hends⟩ :=
    exists_parts_of_lower htokens h heq hscope
  refine ⟨parts, hbody, lowersSlice_scopeText htokens h ⟨inner, heq, hscope, hbody⟩,
    fun out hout ↦ ?_⟩
  obtain ⟨front, back, vs, rfl, hfront, hstart, hreadings, hcoarsens⟩ :=
    hbody.exists_read hplaced hinner hends hscope.1.opening hscope.1.closing hout
  refine ⟨fun t ht ↦ ?_, fun t ht hkind hle hname ↦ ?_, fun name hsurvives hdigit hframe ↦ ?_⟩
  · exact (List.mem_append.1 ht).imp (hfront t) (hstart t)
  · have hlt := (tokenized_of_tokenizeFrom hout).start_lt_stop t ht (by rw [hkind]; decide)
    have hmem : t ∈ back := (List.mem_append.1 ht).resolve_left fun hfirst ↦ by
      have hstop := hfront t hfirst
      omega
    have hreading : t.reading = (.identifier, t.value) := by rw [Token.reading, hkind]
    have hread : t.reading ∈ vs ++ [endReading] := hreadings ▸ List.mem_map_of_mem hmem
    rw [hreading, List.mem_append, List.mem_singleton] at hread
    have hpiece := hcoarsens.mem_left rfl (hread.resolve_right (by simp [endReading]))
    refine survives_of_mem_expansion hname ((List.mem_append.1 hpiece).resolve_right ?_)
    simp [Token.reading, hscope.1.closing]
  · have hpiece := hsurvives.mem_expansion (nodup_boundNames hnodup)
    have hread := hcoarsens.mem_right rfl hdigit hframe (List.mem_append_left _ hpiece)
    obtain ⟨t, ht, hreading⟩ := List.mem_map.1 (hreadings ▸ List.mem_append_left [endReading] hread)
    obtain ⟨hkind, hvalue⟩ := Prod.mk.inj hreading
    exact ⟨t, List.mem_append_right _ ht, hkind, hvalue, hstart t ht⟩

/-- Constants that are declared in the order of their uses. -/
theorem lower_eliminates_ordered :
    ∃ source tokens before opening inner closing after r parts out,
      source = "\x7b const a := 1 const b := add(a, a) require(b) \x7d".toList ∧
      tokenize source = .ok tokens ∧ lower source = .ok r ∧
      tokens = before ++ opening :: (inner ++ closing :: after) ∧
      IsScope (Segment.usesObjects tokens) before opening inner closing after ∧
      IsBody closing inner parts ∧ insertedText source parts ≠ [] ∧
      tokenize (scopeText source opening parts closing) = .ok out ∧
      (∀ t ∈ out, t.stop ≤ bodyStart source opening parts ∨
        bodyStart source opening parts ≤ t.start.offset) ∧
      ∀ t ∈ out, t.kind = .identifier → bodyStart source opening parts ≤ t.start.offset →
        t.value ∉ boundNames (declarationsOf parts) := by
  let opening : Token := ⟨.openBrace, "\x7b".toList, ⟨1, 1, 0⟩, 1⟩
  let keyword : Token := ⟨.constWord, "const".toList, ⟨1, 3, 2⟩, 7⟩
  let name : Token := ⟨.identifier, "a".toList, ⟨1, 9, 8⟩, 9⟩
  let assign : Token := ⟨.assign, ":=".toList, ⟨1, 11, 10⟩, 12⟩
  let number : Token := ⟨.number, "1".toList, ⟨1, 14, 13⟩, 14⟩
  let keyword' : Token := ⟨.constWord, "const".toList, ⟨1, 16, 15⟩, 20⟩
  let name' : Token := ⟨.identifier, "b".toList, ⟨1, 22, 21⟩, 22⟩
  let assign' : Token := ⟨.assign, ":=".toList, ⟨1, 24, 23⟩, 25⟩
  let function : Token := ⟨.identifier, "add".toList, ⟨1, 27, 26⟩, 29⟩
  let paren : Token := ⟨.openParen, "(".toList, ⟨1, 30, 29⟩, 30⟩
  let first : Token := ⟨.identifier, "a".toList, ⟨1, 31, 30⟩, 31⟩
  let comma : Token := ⟨.comma, ",".toList, ⟨1, 32, 31⟩, 32⟩
  let second : Token := ⟨.identifier, "a".toList, ⟨1, 34, 33⟩, 34⟩
  let unparen : Token := ⟨.closeParen, ")".toList, ⟨1, 35, 34⟩, 35⟩
  let call : Token := ⟨.identifier, "require".toList, ⟨1, 37, 36⟩, 43⟩
  let paren' : Token := ⟨.openParen, "(".toList, ⟨1, 44, 43⟩, 44⟩
  let argument : Token := ⟨.identifier, "b".toList, ⟨1, 45, 44⟩, 45⟩
  let unparen' : Token := ⟨.closeParen, ")".toList, ⟨1, 46, 45⟩, 46⟩
  let closing : Token := ⟨.closeBrace, "\x7d".toList, ⟨1, 48, 47⟩, 48⟩
  let last : Token := ⟨.endOfText, [], ⟨1, 49, 48⟩, 48⟩
  let value : List Token := [function, paren, first, comma, second, unparen]
  let inner : List Token := keyword :: ([name, assign, number] ++
    keyword' :: (name' :: assign' :: value ++ [call, paren', argument, unparen']))
  let parts : List Part := [.declared keyword [name, assign, number] (.const "a".toList [number]),
    .declared keyword' (name' :: assign' :: value) (.const "b".toList value),
    .kept call paren', .kept paren' argument, .kept argument unparen', .kept unparen' closing]
  let source : Text := "\x7b const a := 1 const b := add(a, a) require(b) \x7d".toList
  have htokens : tokenize source = .ok (opening :: (inner ++ [closing, last])) := by
    decide +kernel
  obtain ⟨r, hlower⟩ := exists_of_isOk (show (lower source).isOk by decide +kernel)
  have hscope : IsScope false [] opening inner closing [last] :=
    isScope_block rfl (by decide) rfl rfl
  have harguments : CommaList [[first], [second]] [first, comma, second] := .cons rfl .single
  have hvalue : IsExpression value := by
    refine .call rfl rfl rfl harguments fun a ha ↦ ?_
    rcases List.mem_pair.1 ha with rfl | rfl <;> exact .atom (by decide)
  have hconst : Declaration.Spells (.const name.value [number]) [keyword, name, assign, number] :=
    .const rfl rfl rfl (.atom (by decide))
  have hconst' : Declaration.Spells (.const name'.value value)
      (keyword' :: name' :: assign' :: value) := .const rfl rfl rfl hvalue
  have hbody : IsBody closing inner parts :=
    .declared hconst nofun (.declared hconst' trivial
      (.kept rfl (.kept rfl (.kept rfl (.kept rfl .nil)))))
  obtain ⟨parts', hbody', -, heliminates⟩ := lower_eliminates htokens hlower rfl hscope
  obtain rfl := hbody.unique hbody'
  obtain ⟨out, hout⟩ := exists_of_isOk
    (show (tokenize (scopeText source opening parts closing)).isOk by decide +kernel)
  obtain ⟨hsides, hsurvives, -⟩ := heliminates out hout
  have hordered : Ordered (declarationsOf parts) := by
    show Ordered [.const name.value [number], .const name'.value value]
    rintro (- | ⟨d, - | ⟨d', front⟩⟩) c expression back hsplit
    · obtain ⟨hfirst, -⟩ := List.cons.inj hsplit
      obtain ⟨-, rfl⟩ := Declaration.const.inj hfirst
      decide
    · obtain ⟨rfl, hrest⟩ := List.cons.inj hsplit
      obtain ⟨hsecond, -⟩ := List.cons.inj hrest
      obtain ⟨-, rfl⟩ := Declaration.const.inj hsecond
      decide
    · simp at hsplit
  exact ⟨source, _, _, _, _, _, _, r, parts, out, rfl, htokens, hlower, rfl, hscope, hbody,
    by decide +kernel, hout, hsides, fun t ht hkind hle hname ↦
      Ordered.not_survives hordered hname (hsurvives t ht hkind hle hname)⟩

/-- **A name that is not eliminated.** The first constant uses the second, which is declared after
it. -/
theorem lower_leaves_later :
    ∃ source tokens before opening inner closing after r parts out t,
      source = "\x7b const a := b const b := 1 let x := a \x7d".toList ∧
      tokenize source = .ok tokens ∧ lower source = .ok r ∧
      tokens = before ++ opening :: (inner ++ closing :: after) ∧
      IsScope (Segment.usesObjects tokens) before opening inner closing after ∧
      IsBody closing inner parts ∧
      LowersSlice source r opening.start.offset closing.stop
        (scopeText source opening parts closing) ∧
      insertedText source parts = [] ∧
      tokenize (scopeText source opening parts closing) = .ok out ∧ t ∈ out ∧
      t.kind = .identifier ∧ t.value ∈ boundNames (declarationsOf parts) := by
  let opening : Token := ⟨.openBrace, "\x7b".toList, ⟨1, 1, 0⟩, 1⟩
  let keyword : Token := ⟨.constWord, "const".toList, ⟨1, 3, 2⟩, 7⟩
  let name : Token := ⟨.identifier, "a".toList, ⟨1, 9, 8⟩, 9⟩
  let assign : Token := ⟨.assign, ":=".toList, ⟨1, 11, 10⟩, 12⟩
  let value : Token := ⟨.identifier, "b".toList, ⟨1, 14, 13⟩, 14⟩
  let keyword' : Token := ⟨.constWord, "const".toList, ⟨1, 16, 15⟩, 20⟩
  let name' : Token := ⟨.identifier, "b".toList, ⟨1, 22, 21⟩, 22⟩
  let assign' : Token := ⟨.assign, ":=".toList, ⟨1, 24, 23⟩, 25⟩
  let value' : Token := ⟨.number, "1".toList, ⟨1, 27, 26⟩, 27⟩
  let word : Token := ⟨.letWord, "let".toList, ⟨1, 29, 28⟩, 31⟩
  let target : Token := ⟨.identifier, "x".toList, ⟨1, 33, 32⟩, 33⟩
  let assigned : Token := ⟨.assign, ":=".toList, ⟨1, 35, 34⟩, 36⟩
  let used : Token := ⟨.identifier, "a".toList, ⟨1, 38, 37⟩, 38⟩
  let closing : Token := ⟨.closeBrace, "\x7d".toList, ⟨1, 40, 39⟩, 40⟩
  let last : Token := ⟨.endOfText, [], ⟨1, 41, 40⟩, 40⟩
  let inner : List Token := keyword :: ([name, assign, value] ++
    keyword' :: ([name', assign', value'] ++ [word, target, assigned, used]))
  let parts : List Part := [.declared keyword [name, assign, value] (.const "a".toList [value]),
    .declared keyword' [name', assign', value'] (.const "b".toList [value']),
    .kept word target, .kept target assigned, .kept assigned used, .kept used closing]
  let source : Text := "\x7b const a := b const b := 1 let x := a \x7d".toList
  have htokens : tokenize source = .ok (opening :: (inner ++ [closing, last])) := by
    decide +kernel
  have hlower : lower source = .ok ⟨"\x7b   let x := b \x7d".toList, {}⟩ := by
    decide +kernel
  have hscope : IsScope false [] opening inner closing [last] :=
    isScope_block rfl (by decide) rfl rfl
  have hconst : Declaration.Spells (.const name.value [value]) [keyword, name, assign, value] :=
    .const rfl rfl rfl (.atom (by decide))
  have hconst' : Declaration.Spells (.const name'.value [value'])
      [keyword', name', assign', value'] := .const rfl rfl rfl (.atom (by decide))
  have hbody : IsBody closing inner parts :=
    .declared hconst nofun (.declared hconst' nofun
      (.kept rfl (.kept rfl (.kept rfl (.kept rfl .nil)))))
  have hout : (tokenize (scopeText source opening parts closing)).map (fun out ↦
      decide (∃ t ∈ out, t.kind = .identifier ∧ t.value ∈ boundNames (declarationsOf parts))) =
        .ok true := by
    decide +kernel
  obtain ⟨out, hout, hleft⟩ := exists_of_map_eq_ok hout
  obtain ⟨t, ht, hkind, hbound⟩ := of_decide_eq_true hleft
  exact ⟨source, _, _, _, _, _, _, _, parts, out, t, rfl, htokens, hlower, rfl, hscope, hbody,
    lowersSlice_scopeText htokens hlower ⟨inner, rfl, hscope, hbody⟩, by decide +kernel, hout, ht,
    hkind, hbound⟩

end

end YulPlus
