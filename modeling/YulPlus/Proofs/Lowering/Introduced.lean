import Mathlib.Data.List.Nodup
import YulPlus.Proofs.Lowering.Provided

/-!
# The names that declarations introduce

A declaration brings names into the lowered code: the qualified members of an enum, a constant, and
for a struct `S` not its own name but those of its functions, `S.f`, `S.f.position` and `S.f.size`
for each field `f`, and `S.size`. Only declared names are compared when a scope is read, so the
names that are introduced may coincide although no two of those declared do: names and fields may
have dots in them, and a field may be called `size`. `Collides` lists the ways.

They are all of them: the names that a scope introduces are distinct exactly when none of the ways
is taken, and then no function is inserted twice and none of their names is replaced at its uses
(`lower_introduces`). A struct with a field called `size` shows that it can be taken
(`lower_introduces_twice`).

Behind the name of the struct and a dot, the names of its functions are its `members`. So two of
one struct coincide if two members do (`Struct.nodup_members_iff`), and two of different structs
only if the name of one of these goes on behind the name of the other. -/

namespace YulPlus

open Text

/-- What stands behind the name of a struct in the names of the functions of a field. -/
def Field.members (field : Field) : List Text :=
  [field.name ++ ".position".toList, field.name ++ ".size".toList, field.name]

/-- What stands behind the name of a struct in the names of its functions. -/
def Struct.members (s : Struct) : List Text :=
  s.fields.flatMap Field.members ++ ["size".toList]

/-- The names that a declaration introduces into the code. -/
def Declaration.introduced : Declaration → List Text
  | struct s => s.accessorNames
  | d => d.names

/-- The names that the declarations of a scope introduce into the code. -/
def introducedIn (parts : List Part) : List Text :=
  (declarationsOf parts).flatMap Declaration.introduced

/-- Two of the names that the declarations introduce are the same. -/
inductive Collides (ds : List Declaration) : Prop
  /-- A field is called `size`, so its function is called like that of the whole struct. -/
  | size {s : Struct} {field : Field} (hs : .struct s ∈ ds) (hfield : field ∈ s.fields)
      (hname : field.name = "size".toList)
  /-- A field is called like the function for the place or the size of another field. -/
  | field {s : Struct} {field other : Field} (hs : .struct s ∈ ds) (hfield : field ∈ s.fields)
      (hother : other ∈ s.fields) (hname : field.name = other.name ++ ".position".toList ∨
        field.name = other.name ++ ".size".toList)
  /-- A member of an enum or a constant is called like a function of a struct. -/
  | value {d : Declaration} {s : Struct} {n : Text} (hd : d ∈ ds) (hn : n ∈ d.valueNames)
      (hs : .struct s ∈ ds) (hname : n ∈ s.accessorNames)
  /-- The name of a struct goes on behind that of another, and so do their members. -/
  | struct {s s' : Struct} {m x : Text} (hs : .struct s ∈ ds) (hs' : .struct s' ∈ ds)
      (hname : s'.name = s.name ++ '.' :: m) (hx : x ∈ s'.members)
      (hmember : m ++ '.' :: x ∈ s.members)

section

variable {source : Text} {parts : List Part} {ds : List Declaration} {s s' : Struct}
  {inner : List Token} {opening closing : Token}

/-! ### The members of a struct -/

theorem Struct.accessorNames_eq (s : Struct) :
    s.accessorNames = s.members.map fun x ↦ s.name ++ '.' :: x := by
  simp only [accessorNames, members, List.map_append, List.map_flatMap, List.map_cons, List.map_nil]
  congr 2
  funext field
  simp [Field.accessorNames, Field.members]

theorem Struct.mem_accessorNames {n : Text} :
    n ∈ s.accessorNames ↔ ∃ x ∈ s.members, n = s.name ++ '.' :: x := by
  simp [accessorNames_eq, eq_comm]

theorem Struct.nodup_accessorNames_iff : s.accessorNames.Nodup ↔ s.members.Nodup := by
  rw [accessorNames_eq]
  exact List.nodup_map_iff fun x y h ↦ by simpa using h

theorem disjoint_of_pairwise {α β : Type} {f : α → List β} {as : List α} {a a' : α}
    (h : as.Pairwise (Function.onFun List.Disjoint f)) (ha : a ∈ as) (ha' : a' ∈ as)
    (hne : a ≠ a') : List.Disjoint (f a) (f a') :=
  @List.Pairwise.forall _ _ _ ⟨fun _ _ ↦ List.disjoint_comm.1⟩ h _ ha _ ha' hne

/-- The function for the place of a field is not called like one for a size. -/
theorem append_position_ne (n m : Text) : n ++ ".position".toList ≠ m ++ ".size".toList := by
  intro h
  have hlast := congrArg List.getLast? h
  rw [List.getLast?_append_of_ne_nil _ (by decide), List.getLast?_append_of_ne_nil _ (by decide)]
    at hlast
  exact absurd hlast (by decide)

/-- Only a field called `size` gives a member that is `size`. -/
theorem Field.size_mem_members {field : Field} :
    "size".toList ∈ field.members ↔ field.name = "size".toList := by
  have hne : ∀ n tail : Text, 4 < tail.length → "size".toList ≠ n ++ tail := by
    intro n tail htail h
    have hlength := congrArg List.length h
    rw [List.length_append] at hlength
    have hsize : "size".toList.length = 4 := rfl
    omega
  simp only [members, List.mem_cons, List.not_mem_nil, or_false]
  constructor
  · rintro (h | h | h)
    · exact absurd h (hne _ _ (by decide))
    · exact absurd h (hne _ _ (by decide))
    · exact h.symm
  · exact fun h ↦ .inr (.inr h.symm)

theorem Field.nodup_members (field : Field) : field.members.Nodup := by
  have hne : ∀ tail : Text, tail ≠ [] → field.name ++ tail ≠ field.name := by
    intro tail htail h
    exact htail (List.append_right_eq_self.1 h)
  simp [members, hne]

/-- The members of two fields with different names are different, unless one of the fields is called
like a function of the other. -/
theorem Field.disjoint_members {field other : Field} (hne : field.name ≠ other.name) :
    List.Disjoint field.members other.members ↔
      (field.name ≠ other.name ++ ".position".toList ∧
        field.name ≠ other.name ++ ".size".toList) ∧
      other.name ≠ field.name ++ ".position".toList ∧
        other.name ≠ field.name ++ ".size".toList := by
  have hplace := append_position_ne field.name other.name
  have hplace' := append_position_ne other.name field.name
  simp only [members, List.disjoint_cons_left, List.disjoint_nil_left, List.mem_cons,
    List.not_mem_nil, or_false, List.append_cancel_right_eq]
  grind

/-- **The members of a struct are distinct** unless a field is called `size`, or like a function of
another field. -/
theorem Struct.nodup_members_iff (hnodup : (s.fields.map Field.name).Nodup) :
    s.members.Nodup ↔ (∀ field ∈ s.fields, field.name ≠ "size".toList) ∧
      ∀ field ∈ s.fields, ∀ other ∈ s.fields, field.name ≠ other.name ++ ".position".toList ∧
        field.name ≠ other.name ++ ".size".toList := by
  have hself : ∀ (field : Field) (tail : Text), tail ≠ [] → field.name ≠ field.name ++ tail :=
    fun field tail htail h ↦ htail (List.append_right_eq_self.1 h.symm)
  have hfields := List.pairwise_map.1 hnodup
  rw [members, List.nodup_append', List.nodup_flatMap, and_iff_right (List.nodup_singleton _),
    List.disjoint_singleton, List.mem_flatMap, and_iff_right fun field _ ↦ field.nodup_members,
    and_comm]
  refine and_congr ?_ ⟨fun h field hfield other hother ↦ ?_, fun h ↦ ?_⟩
  · simp only [not_exists, not_and, Field.size_mem_members, ne_eq]
  · -- the fields are two, since no name goes on behind itself
    by_cases heq : field = other
    · subst heq
      exact ⟨hself field _ (by decide), hself field _ (by decide)⟩
    · have hne : field.name ≠ other.name :=
        @List.Pairwise.forall _ (fun f g : Field ↦ f.name ≠ g.name) _ ⟨fun _ _ ↦ Ne.symm⟩ hfields
          _ hfield _ hother heq
      exact ((Field.disjoint_members hne).1 (disjoint_of_pairwise h hfield hother heq)).1
  · exact hfields.imp_of_mem fun hfield hother hne ↦
      (Field.disjoint_members hne).2 ⟨h _ hfield _ hother, h _ hother _ hfield⟩

/-! ### The names of several declarations -/

/-- A name of two structs makes the name of one of them go on behind that of the other. -/
theorem exists_of_mem_accessorNames {n : Text} (hne : s.name ≠ s'.name) (hs : n ∈ s.accessorNames)
    (hs' : n ∈ s'.accessorNames) :
    (∃ m x, s'.name = s.name ++ '.' :: m ∧ x ∈ s'.members ∧ m ++ '.' :: x ∈ s.members) ∨
      ∃ m x, s.name = s'.name ++ '.' :: m ∧ x ∈ s.members ∧ m ++ '.' :: x ∈ s'.members := by
  have hsplit : ∀ {a b m x y : Text}, a ≠ b → b = a ++ m → '.' :: x = m ++ '.' :: y →
      ∃ m, b = a ++ '.' :: m ∧ x = m ++ '.' :: y := by
    rintro a b (- | ⟨c, m⟩) x y hab rfl h
    · simp at hab
    · obtain ⟨rfl, rfl⟩ := List.cons.inj h
      exact ⟨m, rfl, rfl⟩
  obtain ⟨x, hx, rfl⟩ := Struct.mem_accessorNames.1 hs
  obtain ⟨y, hy, heq⟩ := Struct.mem_accessorNames.1 hs'
  rcases List.append_eq_append_iff.1 heq with ⟨m, hname, hmember⟩ | ⟨m, hname, hmember⟩
  · obtain ⟨m, hname, rfl⟩ := hsplit hne hname hmember
    exact .inl ⟨m, y, hname, hy, hx⟩
  · obtain ⟨m, hname, rfl⟩ := hsplit hne.symm hname hmember
    exact .inr ⟨m, x, hname, hx, hy⟩

theorem Declaration.eq_struct {d : Declaration} (h : d.struct? = some s) : d = .struct s := by
  cases d with
  | struct => exact congrArg _ (Option.some.inj h)
  | _ => cases h

/-- What is no struct introduces the names that it declares, and binds them to values. -/
theorem Declaration.introduced_eq {d : Declaration} (h : d.struct? = none) :
    d.introduced = d.names ∧ d.introduced = d.valueNames := by
  cases d with
  | struct => cases h
  | _ => exact ⟨rfl, rfl⟩

theorem Declaration.introduced_of_mem_valueNames {d : Declaration} {n : Text}
    (h : n ∈ d.valueNames) : n ∈ d.introduced := by
  cases d with
  | struct => cases h
  | _ => exact h

/-- Declarations that collide introduce a name twice. -/
theorem Collides.not_nodup_introduced
    (hfields : ∀ s, .struct s ∈ ds → (s.fields.map Field.name).Nodup) (h : Collides ds) :
    ¬ (ds.flatMap Declaration.introduced).Nodup := by
  intro hnodup
  obtain ⟨hown, hother⟩ := List.nodup_flatMap.1 hnodup
  have hmembers : ∀ {s}, .struct s ∈ ds → s.members.Nodup :=
    fun hs ↦ Struct.nodup_accessorNames_iff.1 (hown _ hs)
  -- two declarations that are not the same share no name
  have hdisjoint : ∀ {d d' n}, d ∈ ds → d' ∈ ds → d ≠ d' → n ∈ d.introduced →
      n ∉ d'.introduced := fun hd hd' hne hn hn' ↦ disjoint_of_pairwise hother hd hd' hne hn hn'
  rcases h with ⟨hs, hfield, hname⟩ | ⟨hs, hfield, hother, hname⟩ | ⟨hd, hn, hs, hname⟩ |
    ⟨hs, hs', hname, hx, hmember⟩
  · exact ((Struct.nodup_members_iff (hfields _ hs)).1 (hmembers hs)).1 _ hfield hname
  · obtain ⟨hplace, hsize⟩ :=
      ((Struct.nodup_members_iff (hfields _ hs)).1 (hmembers hs)).2 _ hfield _ hother
    exact hname.elim hplace hsize
  · refine hdisjoint hd hs ?_ (Declaration.introduced_of_mem_valueNames hn) hname
    rintro rfl
    cases hn
  · refine hdisjoint hs hs' ?_ (Struct.mem_accessorNames.2 ⟨_, hmember, rfl⟩)
      (Struct.mem_accessorNames.2 ⟨_, hx, by simp [hname]⟩)
    intro heq
    obtain rfl := Declaration.struct.inj heq
    simp at hname

/-- One declaration introduces no name twice, if nothing collides. -/
theorem Declaration.nodup_introduced {d : Declaration} (hd : d ∈ ds)
    (hfields : ∀ s, .struct s ∈ ds → (s.fields.map Field.name).Nodup) (hnames : d.names.Nodup)
    (hcollides : ¬ Collides ds) : d.introduced.Nodup := by
  cases hstruct : d.struct? with
  | none => exact (Declaration.introduced_eq hstruct).1 ▸ hnames
  | some s =>
    obtain rfl := Declaration.eq_struct hstruct
    exact Struct.nodup_accessorNames_iff.2 ((Struct.nodup_members_iff (hfields s hd)).2
      ⟨fun field hfield hname ↦ hcollides (.size hd hfield hname),
        fun field hfield other hother ↦
          ⟨fun h ↦ hcollides (.field hd hfield hother (.inl h)),
            fun h ↦ hcollides (.field hd hfield hother (.inr h))⟩⟩)

/-- Two declarations introduce no name in common, if they declare none and nothing collides. -/
theorem Declaration.disjoint_introduced {d d' : Declaration} (hd : d ∈ ds) (hd' : d' ∈ ds)
    (hnames : List.Disjoint d.names d'.names) (hcollides : ¬ Collides ds) :
    List.Disjoint d.introduced d'.introduced := by
  intro n hn hn'
  cases hstruct : d.struct? with
  | none =>
    obtain ⟨hdeclared, hvalues⟩ := Declaration.introduced_eq hstruct
    cases hstruct' : d'.struct? with
    | none =>
      rw [hdeclared] at hn
      rw [(Declaration.introduced_eq hstruct').1] at hn'
      exact hnames hn hn'
    | some s' =>
      obtain rfl := Declaration.eq_struct hstruct'
      exact hcollides (.value hd (hvalues ▸ hn) hd' hn')
  | some s =>
    obtain rfl := Declaration.eq_struct hstruct
    cases hstruct' : d'.struct? with
    | none => exact hcollides (.value hd' ((Declaration.introduced_eq hstruct').2 ▸ hn') hd hn)
    | some s' =>
      obtain rfl := Declaration.eq_struct hstruct'
      have hne : s.name ≠ s'.name := fun h ↦
        hnames (a := s.name) (by simp [Declaration.names]) (by simp [Declaration.names, h])
      rcases exists_of_mem_accessorNames hne hn hn' with ⟨m, x, hname, hx, hmember⟩ |
        ⟨m, x, hname, hx, hmember⟩
      · exact hcollides (.struct hd hd' hname hx hmember)
      · exact hcollides (.struct hd' hd hname hx hmember)

/-- **The names that some declarations introduce are distinct** unless they collide, if the fields
of each struct are distinct and no name is declared twice. -/
theorem nodup_introduced_iff (hfields : ∀ s, .struct s ∈ ds → (s.fields.map Field.name).Nodup)
    (hnodup : (ds.flatMap Declaration.names).Nodup) :
    (ds.flatMap Declaration.introduced).Nodup ↔ ¬ Collides ds := by
  refine ⟨fun h hcollides ↦ hcollides.not_nodup_introduced hfields h, fun hcollides ↦ ?_⟩
  obtain ⟨hnames, hpairs⟩ := List.nodup_flatMap.1 hnodup
  exact List.nodup_flatMap.2
    ⟨fun d hd ↦ Declaration.nodup_introduced hd hfields (hnames d hd) hcollides,
      hpairs.imp_of_mem fun hd hd' hdisjoint ↦
        Declaration.disjoint_introduced hd hd' hdisjoint hcollides⟩

/-! ### Scopes -/

/-- The fields of a struct of a scope are distinct. -/
theorem IsBody.nodup_fields (h : IsBody closing inner parts) :
    ∀ s, .struct s ∈ declarationsOf parts → (s.fields.map Field.name).Nodup := by
  intro s hs
  obtain ⟨-, ds, -, -, hspells⟩ := h.exists_append_of_mem hs
  cases hspells with
  | struct _ _ _ _ _ hnodup => exact hnodup

/-- The names of the functions of structs are among those that are introduced. -/
theorem accessorNames_sublist :
    ((ds.filterMap Declaration.struct?).flatMap Struct.accessorNames).Sublist
      (ds.flatMap Declaration.introduced) := by
  induction ds with
  | nil => exact .slnil
  | cons d ds ih =>
    rw [List.flatMap_cons]
    cases hstruct : d.struct? with
    | none =>
      rw [List.filterMap_cons_none hstruct]
      exact ih.trans (List.sublist_append_right _ _)
    | some s =>
      obtain rfl := Declaration.eq_struct hstruct
      rw [List.filterMap_cons_some hstruct, List.flatMap_cons]
      exact (List.Sublist.refl _).append ih

theorem nodup_libraryNames : ∀ slice require : Bool, (libraryNames slice require).Nodup := by
  decide

/-- **If the names are distinct, then so are those of the inserted functions.** -/
theorem exists_nodup_scopeHelpers (hstructs : ∀ s ∈ (boundIn source parts).structs, s.HasNames)
    (hnodup : (introducedIn parts).Nodup) :
    ∃ names, List.Forall₂ DefinesOnly names
        (scopeHelpers (boundIn source parts) (parts.map Part.item)) ∧ names.Nodup := by
  obtain ⟨slice, require, hnames, -⟩ := exists_definesOnly_scopeHelpers hstructs
  refine ⟨_, hnames, List.nodup_append'.2
    ⟨hnodup.sublist accessorNames_sublist, nodup_libraryNames slice require, fun n hn hn' ↦ ?_⟩⟩
  obtain ⟨s, -, hn⟩ := List.mem_flatMap.1 hn
  exact dot_notMem_of_mem_libraryNames slice require n hn' (s.dot_mem_of_mem_accessorNames hn)

/-- **If the names are distinct, then no use of a function of a struct is replaced.** -/
theorem replacement?_eq_none_of_nodup (hnodup : ¬ Collides (declarationsOf parts))
    (hs : .struct s ∈ declarationsOf parts) {t : Token} (ht : t.kind = .identifier)
    (hname : t.value ∈ s.accessorNames) :
    t.replacement? (boundIn source parts).values = none := by
  rw [Token.replacement?, if_pos ht, Bindings.value?, Option.map_eq_none_iff, List.find?_eq_none]
  intro e he heq
  have hbound := List.mem_map_of_mem (f := Prod.fst) he
  rw [boundIn, map_fst_valuesOf, show e.1 = t.value by simpa using heq] at hbound
  obtain ⟨d, hd, hn⟩ := List.mem_flatMap.1 hbound
  exact hnodup (.value hd hn hs hname)

/-- **The names that a scope introduces.** No two declared names of a scope are the same, and the
names that its declarations introduce are distinct exactly when they do not collide. Then no
function is inserted twice, and where a function of a struct is used its name is kept. -/
theorem lower_introduces {tokens before after : List Token} {r : Lowered}
    (htokens : tokenize source = .ok tokens) (h : lower source = .ok r)
    (heq : tokens = before ++ opening :: (inner ++ closing :: after))
    (hscope : IsScope (Segment.usesObjects tokens) before opening inner closing after) :
    ∃ parts, IsBody closing inner parts ∧ (namesOf parts).Nodup ∧
      ((introducedIn parts).Nodup ↔ ¬ Collides (declarationsOf parts)) ∧
      ((introducedIn parts).Nodup →
        (∃ names, List.Forall₂ DefinesOnly names
          (scopeHelpers (boundIn source parts) (parts.map Part.item)) ∧ names.Nodup) ∧
        ∀ s, .struct s ∈ declarationsOf parts → ∀ t : Token, t.kind = .identifier →
          t.value ∈ s.accessorNames →
            t.replacement? (boundIn source parts).values = none) := by
  obtain ⟨parts, o, hbody, hnodup, -, hinner, -⟩ := exists_parts_of_lower htokens h heq hscope
  have hiff := nodup_introduced_iff hbody.nodup_fields hnodup
  exact ⟨parts, hbody, hnodup, hiff, fun h ↦
    ⟨exists_nodup_scopeHelpers (hbody.hasNames hinner) h,
      fun s hs t ht hname ↦ replacement?_eq_none_of_nodup (hiff.1 h) hs ht hname⟩⟩

/-- An enum and a struct whose names begin with the same words. -/
theorem lower_introduces_dotted :
    ∃ source tokens before opening inner closing after r parts,
      source = "\x7b enum S.f (g) mstruct S (f: 4, g.f: 8) \x7d".toList ∧
      tokenize source = .ok tokens ∧ lower source = .ok r ∧
      tokens = before ++ opening :: (inner ++ closing :: after) ∧
      IsScope (Segment.usesObjects tokens) before opening inner closing after ∧
      IsBody closing inner parts ∧ (namesOf parts).Nodup ∧ (introducedIn parts).Nodup ∧
      ¬ Collides (declarationsOf parts) ∧
      (∃ names, List.Forall₂ DefinesOnly names
        (scopeHelpers (boundIn source parts) (parts.map Part.item)) ∧ names.Nodup) ∧
      ∀ s, .struct s ∈ declarationsOf parts → ∀ t : Token, t.kind = .identifier →
        t.value ∈ s.accessorNames → t.replacement? (boundIn source parts).values = none := by
  let opening : Token := ⟨.openBrace, "\x7b".toList, ⟨1, 1, 0⟩, 1⟩
  let enumWord : Token := ⟨.enumWord, "enum".toList, ⟨1, 3, 2⟩, 6⟩
  let enumName : Token := ⟨.identifier, "S.f".toList, ⟨1, 8, 7⟩, 10⟩
  let enumOpening : Token := ⟨.openParen, "(".toList, ⟨1, 12, 11⟩, 12⟩
  let member : Token := ⟨.identifier, "g".toList, ⟨1, 13, 12⟩, 13⟩
  let enumClosing : Token := ⟨.closeParen, ")".toList, ⟨1, 14, 13⟩, 14⟩
  let structWord : Token := ⟨.structWord, "mstruct".toList, ⟨1, 16, 15⟩, 22⟩
  let structName : Token := ⟨.identifier, "S".toList, ⟨1, 24, 23⟩, 24⟩
  let structOpening : Token := ⟨.openParen, "(".toList, ⟨1, 26, 25⟩, 26⟩
  let field : Token := ⟨.identifier, "f".toList, ⟨1, 27, 26⟩, 27⟩
  let colon : Token := ⟨.colon, ":".toList, ⟨1, 28, 27⟩, 28⟩
  let size : Token := ⟨.number, "4".toList, ⟨1, 30, 29⟩, 30⟩
  let comma : Token := ⟨.comma, ",".toList, ⟨1, 31, 30⟩, 31⟩
  let field' : Token := ⟨.identifier, "g.f".toList, ⟨1, 33, 32⟩, 35⟩
  let colon' : Token := ⟨.colon, ":".toList, ⟨1, 36, 35⟩, 36⟩
  let size' : Token := ⟨.number, "8".toList, ⟨1, 38, 37⟩, 38⟩
  let structClosing : Token := ⟨.closeParen, ")".toList, ⟨1, 39, 38⟩, 39⟩
  let closing : Token := ⟨.closeBrace, "\x7d".toList, ⟨1, 41, 40⟩, 41⟩
  let last : Token := ⟨.endOfText, [], ⟨1, 42, 41⟩, 41⟩
  let enumTail : List Token := [enumName, enumOpening, member, enumClosing]
  let fields : List Token := [field, colon, size, comma, field', colon', size']
  let structTail : List Token := structName :: structOpening :: (fields ++ [structClosing])
  let inner : List Token := enumWord :: (enumTail ++ structWord :: (structTail ++ []))
  let struct : Struct := ⟨"S".toList, [⟨"f".toList, 4⟩, ⟨"g.f".toList, 8⟩]⟩
  let parts : List Part := [.declared enumWord enumTail (.enum "S.f".toList ["g".toList]),
    .declared structWord structTail (.struct struct)]
  let source : Text := "\x7b enum S.f (g) mstruct S (f: 4, g.f: 8) \x7d".toList
  have htokens : tokenize source = .ok (opening :: (inner ++ [closing, last])) := by
    decide +kernel
  obtain ⟨r, hlower⟩ := exists_of_isOk (show (lower source).isOk by decide +kernel)
  have hscope : IsScope false [] opening inner closing [last] :=
    isScope_block rfl (by decide) rfl rfl
  have hfield : IsField [field, colon, size] ⟨field.value, 4⟩ :=
    .mk rfl rfl rfl (by decide) (by decide) (by decide)
  have hfield' : IsField [field', colon', size'] ⟨field'.value, 8⟩ :=
    .mk rfl rfl rfl (by decide) (by decide) (by decide)
  have henum : Declaration.Spells (.enum enumName.value [member.value])
      (enumWord :: enumName :: enumOpening :: ([member] ++ [enumClosing])) :=
    .enum rfl rfl rfl .single (.cons (.mk rfl) .nil) rfl
  have hstruct : Declaration.Spells (.struct ⟨structName.value, struct.fields⟩)
      (structWord :: structName :: structOpening ::
        ([field, colon, size] ++ comma :: [field', colon', size'] ++ [structClosing])) :=
    .structPair rfl rfl rfl hfield rfl hfield' (by decide) rfl
  have hbody : IsBody closing inner parts :=
    .declared henum trivial (.declared hstruct trivial .nil)
  obtain ⟨parts', hbody', hnames, hiff, hdistinct⟩ :=
    lower_introduces htokens hlower rfl hscope
  obtain rfl := hbody.unique hbody'
  have hnodup : (introducedIn parts).Nodup := by decide
  exact ⟨source, _, _, _, _, _, _, r, parts, rfl, htokens, hlower, rfl, hscope, hbody, hnames,
    hnodup, hiff.1 hnodup, hdistinct hnodup⟩

/-- **A name that is introduced twice.** The function of the field is called like that of the size
of the struct. -/
theorem lower_introduces_twice :
    ∃ source tokens before opening inner closing after r parts,
      source = "\x7b mstruct S (size: 4) \x7d".toList ∧ tokenize source = .ok tokens ∧
      lower source = .ok r ∧ tokens = before ++ opening :: (inner ++ closing :: after) ∧
      IsScope (Segment.usesObjects tokens) before opening inner closing after ∧
      IsBody closing inner parts ∧ (introducedIn parts).count "S.size".toList = 2 ∧
      ¬ (introducedIn parts).Nodup := by
  let opening : Token := ⟨.openBrace, "\x7b".toList, ⟨1, 1, 0⟩, 1⟩
  let keyword : Token := ⟨.structWord, "mstruct".toList, ⟨1, 3, 2⟩, 9⟩
  let name : Token := ⟨.identifier, "S".toList, ⟨1, 11, 10⟩, 11⟩
  let paren : Token := ⟨.openParen, "(".toList, ⟨1, 13, 12⟩, 13⟩
  let field : Token := ⟨.identifier, "size".toList, ⟨1, 14, 13⟩, 17⟩
  let colon : Token := ⟨.colon, ":".toList, ⟨1, 18, 17⟩, 18⟩
  let size : Token := ⟨.number, "4".toList, ⟨1, 20, 19⟩, 20⟩
  let unparen : Token := ⟨.closeParen, ")".toList, ⟨1, 21, 20⟩, 21⟩
  let closing : Token := ⟨.closeBrace, "\x7d".toList, ⟨1, 23, 22⟩, 23⟩
  let last : Token := ⟨.endOfText, [], ⟨1, 24, 23⟩, 23⟩
  let tail : List Token := [name, paren, field, colon, size, unparen]
  let inner : List Token := keyword :: (tail ++ [])
  let parts : List Part :=
    [.declared keyword tail (.struct ⟨"S".toList, [⟨"size".toList, 4⟩]⟩)]
  let source : Text := "\x7b mstruct S (size: 4) \x7d".toList
  have htokens : tokenize source = .ok (opening :: (inner ++ [closing, last])) := by
    decide +kernel
  obtain ⟨r, hlower⟩ := exists_of_isOk (show (lower source).isOk by decide +kernel)
  have hscope : IsScope false [] opening inner closing [last] :=
    isScope_block rfl (by decide) rfl rfl
  have hsizes : List.Forall₂ IsField [[field, colon, size]] [⟨"size".toList, 4⟩] :=
    .cons (.mk rfl rfl rfl (by decide) (by decide) (by decide)) .nil
  have hstruct : Declaration.Spells (.struct ⟨name.value, [⟨"size".toList, 4⟩]⟩)
      (keyword :: name :: paren :: ([field, colon, size] ++ [unparen])) :=
    .struct rfl rfl rfl .single hsizes (by decide) rfl
  have hbody : IsBody closing inner parts := .declared hstruct trivial .nil
  exact ⟨source, _, _, _, _, _, _, r, parts, rfl, htokens, hlower, rfl, hscope, hbody,
    by decide, by decide⟩

end

end YulPlus
