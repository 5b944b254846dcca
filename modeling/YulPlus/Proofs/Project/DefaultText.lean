import YulPlus.Proofs.Project.Versions
import YulPlus.Proofs.Yaml.Lines
import YulPlus.Proofs.Yaml.Nodes
import YulPlus.Proofs.Yaml.Trailer

/-!
# Reading the text of a new project

A new project gets a configuration text with the version between double quotes, as it was given.
Everything around it is read as it was meant: the lines before and behind the version are two keys
and their values whatever the version is, as long as it ends where it was written to end
(`tokens_defaultText`, `run_defaultTrailer`). Then the version is what the quoted scalar reads as,
which is what was given if it is literal (`Yaml.isLiteral`).

A version with a quote of its own ends there, and the rest of it is read as lines of the
configuration. It may well be read, with other entries than were meant, and with another version:
what is left holds no scalar as long as the version was (`version_ne_of_quote`). So the text of a
new project is read back exactly for literal versions (`parse_defaultText_iff`). -/

namespace YulPlus

open Text Schema Yaml Scanner

namespace ProjectConfig

variable {label v w text : Text} {k after : Cursor} {tokens : List Yaml.Token}
  {config : ProjectConfig} {value : Value} {entries shown : List (Scalar × Value)}

/-! ### The lines of the text -/

/-- The lines behind the version. -/
def defaultTrailer : Text :=
  ("sources: contracts\nartifacts: artifacts\n# yul-details:\n" ++
    "#   stackAllocation: true\n").toList

/-- The tokens in front of the version, last first. -/
def headTokens : List Yaml.Token :=
  [.value, .scalar true "version".toList, .key, .blockMappingStart]

/-- The tokens of the lines behind the version. -/
def trailerTokens : List Yaml.Token :=
  [.key, .scalar true "sources".toList, .value, .scalar true "contracts".toList,
    .key, .scalar true "artifacts".toList, .value, .scalar true "artifacts".toList, .blockEnd]

theorem isWord_version : IsLowerWord "version".toList := ⟨by decide, by decide, by decide⟩

theorem isWord_sources : IsLowerWord "sources".toList := ⟨by decide, by decide, by decide⟩

theorem isWord_contracts : IsLowerWord "contracts".toList := ⟨by decide, by decide, by decide⟩

theorem isWord_artifacts : IsLowerWord "artifacts".toList := ⟨by decide, by decide, by decide⟩

theorem defaultText_eq (v : Text) :
    defaultText v = '#' :: (" yulbuild project configuration".toList ++
      '\n' :: ("version".toList ++ ':' :: ' ' :: '"' :: (v ++ '"' :: '\n' :: defaultTrailer))) := by
  have hhead : "# yulbuild project configuration\nversion: \"".toList =
      '#' :: (" yulbuild project configuration".toList ++
        '\n' :: ("version".toList ++ [':', ' ', '"'])) := by simp
  have htail : ("\"\nsources: contracts\nartifacts: artifacts\n# yul-details:\n" ++
      "#   stackAllocation: true\n").toList = '"' :: '\n' :: defaultTrailer := by
    decide
  have happend : ∀ comment key tail : Text,
      '#' :: (comment ++ '\n' :: (key ++ [':', ' ', '"'])) ++ v ++ '"' :: '\n' :: tail =
        '#' :: (comment ++ '\n' :: (key ++ ':' :: ' ' :: '"' :: (v ++ '"' :: '\n' :: tail))) := by
    simp
  exact (congrArg₂ (fun head tail ↦ head ++ v ++ tail) hhead htail).trans (happend _ _ _)

theorem defaultTrailer_eq :
    defaultTrailer = "sources".toList ++ ':' :: ' ' :: ("contracts".toList ++
      '\n' :: ("artifacts".toList ++ ':' :: ' ' :: ("artifacts".toList ++
        '\n' :: '#' :: (" yul-details:".toList ++
          '\n' :: '#' :: ("   stackAllocation: true".toList ++ ['\n']))))) := by
  decide

theorem trailer_defaultTrailer : Trailer defaultTrailer :=
  ⟨⟨'s', by decide, by decide⟩, by decide, by decide⟩

/-- **The lines behind the version are read as two entries.** -/
theorem run_defaultTrailer (hafter : after.rest = '\n' :: defaultTrailer) :
    (atValue after tokens).run = .ok (tokens.reverse ++ trailerTokens) := by
  have hnext : after.next.rest = defaultTrailer := by rw [Cursor.next_rest, hafter]; rfl
  have hgaps : (atValue after tokens).skipGaps = atLine after.next [0] tokens :=
    skipGaps_lineFeed (c := 's') hafter (by decide) (by decide) (by decide)
  rw [defaultTrailer_eq] at hnext
  have hlength : after.next.rest.length ≤ after.rest.length := by
    rw [Cursor.next_rest, List.length_tail]
    omega
  obtain ⟨k₁, hk₁, hcolumn₁, hrun₁⟩ := run_entry hgaps hlength
    (Cursor.column_next rfl (.inl (by decide)) hafter) isWord_sources isWord_contracts hnext
    (by decide) (by decide)
  set tokens₁ : List Yaml.Token := .scalar true "contracts".toList :: .value ::
    .scalar true "sources".toList :: .key :: tokens with htokens₁
  have hgaps₁ : (atLine k₁ [0] tokens₁).skipGaps = atLine k₁ [0] tokens₁ :=
    skipGaps_of_cons (c := 'a') hk₁ (by decide) (by decide)
  obtain ⟨k₂, hk₂, hcolumn₂, hrun₂⟩ := run_entry hgaps₁ (Nat.le_refl _) hcolumn₁ isWord_artifacts
    isWord_artifacts hk₁ (by decide) (by decide)
  set tokens₂ : List Yaml.Token := .scalar true "artifacts".toList :: .value ::
    .scalar true "artifacts".toList :: .key :: tokens₁ with htokens₂
  obtain ⟨k₃, hk₃, -, hgaps₃⟩ := skipGaps_comment [0] tokens₂ hk₂ (by decide)
  obtain ⟨k₄, hk₄, -, hgaps₄⟩ := skipGaps_comment [0] tokens₂ hk₃ (by decide)
  have hgaps₅ : (atLine k₄ [0] tokens₂).skipGaps = atLine k₄ [0] tokens₂ :=
    skipGaps_eq_self (by simp [atLine, hk₄])
  rw [hrun₁, hrun₂, run_end (hgaps₃.trans (hgaps₄.trans hgaps₅)) hk₄, htokens₂, htokens₁,
    trailerTokens]
  simp only [List.reverse_cons, List.append_assoc, List.cons_append, List.nil_append]

/-- Only the version can have characters that are not allowed. -/
theorem all_isAllowed_defaultText (v : Text) : (defaultText v).all isAllowed = v.all isAllowed := by
  have hhead : ("# yulbuild project configuration\nversion: \"".toList).all isAllowed = true := by
    decide
  have htail : (("\"\nsources: contracts\nartifacts: artifacts\n# yul-details:\n" ++
      "#   stackAllocation: true\n").toList).all isAllowed = true := by
    decide
  have happend : ∀ head tail : Text, head.all isAllowed = true → tail.all isAllowed = true →
      (head ++ v ++ tail).all isAllowed = v.all isAllowed := by
    intro head tail hhead htail
    simp [hhead, htail]
  exact happend _ _ hhead htail

/-- **Up to the version, the text is read as the key of a mapping**, and the version as a quoted
scalar. -/
theorem tokens_defaultText (hv : v.all isAllowed = true) :
    ∃ k : Cursor, k.rest = v ++ '"' :: '\n' :: defaultTrailer ∧
      Yaml.tokens (defaultText v) =
        match quotedScalar true k with
        | .error fault => .error fault
        | .ok (text, after) => (atValue after (.scalar false text :: headTokens)).run := by
  set start : Cursor := ⟨defaultText v, 0, 0, 0⟩ with hstart
  have hrest : start.rest = _ := defaultText_eq v
  obtain ⟨k₁, hk₁, hcolumn₁, hgaps₁⟩ := skipGaps_comment [] [] hrest (by decide)
  have hgaps₂ : (atLine k₁ [] []).skipGaps = atLine k₁ [] [] :=
    skipGaps_of_cons (c := 'v') hk₁ (by decide) (by decide)
  have hlength : k₁.rest.length ≤ start.rest.length := by
    rw [hk₁, hrest]
    simp only [List.length_cons, List.length_append]
    omega
  obtain ⟨k₂, hk₂, hrun⟩ := run_key (s := atLine start [] []) (hgaps₁.trans hgaps₂) hlength hcolumn₁
    (.inl rfl) isWord_version hk₁
  refine ⟨k₂.next.next, ?_, ?_⟩
  · rw [Cursor.next_rest, Cursor.next_rest, hk₂]
    rfl
  · have hmark : (defaultText v).head? ≠ some '\ufeff' := by
      rw [defaultText_eq, List.head?_cons]
      decide
    simp only [Yaml.tokens, all_isAllowed_defaultText, hv, hmark, if_true, if_false]
    exact hrun.trans (run_quoted hk₂)

/-- The node of the text with a version that is read as `w`. -/
def defaultNode (w : Text) : Node :=
  .mapping [(.scalar true "version".toList, .scalar false w),
    (.scalar true "sources".toList, .scalar true "contracts".toList),
    (.scalar true "artifacts".toList, .scalar true "artifacts".toList)]

theorem readStream_defaultTokens (w : Text) :
    Node.readStream ((.scalar false w :: headTokens).reverse ++ trailerTokens) =
      .ok (defaultNode w) := by
  simp [headTokens, trailerTokens, defaultNode, Node.readStream, Node.readDocument, Node.read,
    Node.readEntries, Node.readUnless, Node.endsEntry, Node.checkEnd, bind, Except.bind, pure,
    Except.pure]

theorem valueOfNode_defaultNode (w : Text) :
    valueOfNode (defaultNode w) = .ok (.map [(.text "version".toList, .text w),
      (.text "sources".toList, .text "contracts".toList),
      (.text "artifacts".toList, .text "artifacts".toList)]) := by
  rw [defaultNode, valueOfNode, entriesOfNodes, entriesOfNodes, entriesOfNodes, entriesOfNodes]
  rfl

/-- **What the version is read as is the version of the configuration**, if it ends where it is
written to end, and nothing else depends on it. -/
theorem parse_of_tokens (label : Text) (htokens : Yaml.tokens text =
      (atValue after (.scalar false w :: headTokens)).run)
    (hafter : after.rest = '\n' :: defaultTrailer) : parse label text = .ok { version := w } := by
  have hnode : Node.ofText text = .ok (defaultNode w) := by
    rw [Node.ofText, htokens, run_defaultTrailer hafter]
    exact readStream_defaultTokens w
  rw [parse, Yaml.parse, hnode]
  dsimp only
  rw [valueOfNode_defaultNode]
  rfl

/-! ### Versions with a quote -/

/-- A text that a document has for the value of a key is a scalar of its tokens, if these begin with
one, and there is none behind a mark. -/
theorem landmarks_of_parse {first s : Text} {ls : List Landmark} {key : Scalar}
    (htokens : Yaml.tokens text = .ok tokens) (hfirst : landmarks tokens = .scalar first :: ls)
    (h : Yaml.parse text = .ok (.map entries)) (hmem : (key, .text s) ∈ entries) (hne : s ≠ []) :
    .scalar s ∈ landmarks tokens ∧ ∀ s', ¬ [.mark, .scalar s'].Sublist (landmarks tokens) := by
  unfold Yaml.parse at h
  split at h
  · cases h
  · next node hnode =>
    rw [Node.ofText, htokens] at hnode
    obtain ⟨hmark, htexts⟩ := Node.landmarks_of_readStream hnode hfirst
    exact ⟨(htexts s (mem_texts_of_map h hmem)).resolve_left hne, hmark⟩

/-- **A version that ends at a quote of its own is not read back.** It has a quote, which the key in
front of it has not, and is longer than what it is read as, and than what its rest is read as. -/
theorem version_ne_of_quote {src rest : Text}
    (htokens : Yaml.tokens (defaultText (src ++ '"' :: rest)) =
      (atValue after (.scalar false w :: headTokens)).run)
    (hlength : w.length ≤ src.length) (hafter : after.rest = rest ++ '"' :: '\n' :: defaultTrailer)
    (h : parse label (defaultText (src ++ '"' :: rest)) = .ok config) :
    config.version ≠ src ++ '"' :: rest := by
  intro hversion
  have hquote : '"' ∈ config.version := by simp [hversion]
  obtain ⟨entries, hyaml, hmem⟩ := exists_of_parse h hquote
  rw [hversion] at hmem
  cases hrun : (atValue after (.scalar false w :: headTokens)).run with
  | error fault =>
    rw [Yaml.parse, Node.ofText, htokens, hrun] at hyaml
    cases hyaml
  | ok tokens =>
    have hbehind : after.rest = (rest ++ ['"']) ++ '\n' :: defaultTrailer := by simp [hafter]
    obtain ⟨new, hadds, hnew⟩ := trailer_defaultTrailer.run_landmarks hbehind
      (by simp [atValue]) hrun
    have hlandmarks : landmarks tokens = .scalar "version".toList :: .scalar w :: new := hadds
    obtain ⟨hscalar, hmark⟩ :=
      landmarks_of_parse (htokens.trans hrun) hlandmarks hyaml hmem (by simp)
    rw [hlandmarks] at hscalar hmark
    have hsmaller := hnew.resolve_left (not_exists.2 fun s hs ↦ hmark s ((hs.cons _).cons _))
    rcases List.mem_cons.1 hscalar with heq | hscalar
    · have hword : '"' ∉ "version".toList := by decide
      exact hword (Landmark.scalar.inj heq ▸ by simp)
    rcases List.mem_cons.1 hscalar with heq | hscalar
    · have heq' := congrArg List.length (Landmark.scalar.inj heq)
      simp only [List.length_append, List.length_cons] at heq'
      omega
    rcases hsmaller _ hscalar with hless | ⟨hless, hhead⟩ | hquote
    · simp only [List.length_append, List.length_cons, List.length_nil] at hless
      omega
    · simp only [List.length_append, List.length_cons, List.length_nil] at hless
      obtain rfl : src = [] := List.length_eq_zero_iff.1 (by omega)
      exact hhead rfl
    · exact hquote (by simp)

/-! ### All versions -/

/-- A version that is read back ends where it is written to end, and is literal. -/
theorem isLiteral_of_quotedScalar (hk : k.rest = v ++ '"' :: '\n' :: defaultTrailer)
    (htokens : Yaml.tokens (defaultText v) = (atValue after (.scalar false w :: headTokens)).run)
    (hquoted : quotedScalar true k = .ok (w, after))
    (h : parse label (defaultText v) = .ok config) (hversion : config.version = v) :
    config = { version := v } ∧ isLiteral v = true := by
  obtain ⟨src, hsrc, hlength, hliteral⟩ := quotedScalar_eq_ok hquoted
  have hwritten : v = src → after.rest = '\n' :: defaultTrailer →
      config = { version := v } ∧ isLiteral v = true := by
    rintro rfl hafter
    obtain rfl := Except.ok.inj (h.symm.trans (parse_of_tokens label htokens hafter))
    obtain rfl : w = v := hversion
    exact ⟨rfl, hliteral rfl rfl⟩
  rcases List.append_eq_append_iff.1 (hsrc.symm.trans hk) with
    ⟨rest, rfl, hrest⟩ | ⟨rest, rfl, hrest⟩
  · cases rest with
    | nil => exact hwritten (by simp) (List.cons.inj hrest).2
    | cons c rest =>
      obtain ⟨hc, hafter⟩ := List.cons.inj hrest
      obtain rfl : '"' = c := hc
      exact absurd hversion (version_ne_of_quote htokens hlength hafter h)
  · cases rest with
    | nil => exact hwritten (by simp) (List.cons.inj hrest).2.symm
    | cons c rest =>
      -- the closing quote would stand behind the version
      have hmem : '"' ∈ '\n' :: defaultTrailer := by
        rw [(List.cons.inj hrest).2]
        exact List.mem_append_right _ List.mem_cons_self
      exact absurd hmem (by decide)

/-- **The text of a new project is read back exactly if the version is literal** and its characters
are allowed; then every other entry has its default. -/
theorem parse_defaultText_iff (label v : Text) (config : ProjectConfig) :
    parse label (defaultText v) = .ok config ∧ config.version = v ↔
      config = { version := v } ∧ (∀ c ∈ v, isAllowed c = true) ∧ isLiteral v = true := by
  cases hallowed : v.all isAllowed with
  | false =>
    have htokens : Yaml.tokens (defaultText v) = .error .malformed := by
      rw [Yaml.tokens, all_isAllowed_defaultText, hallowed]
      rfl
    have hparse : parse label (defaultText v) = .error (.config (.malformed label)) := by
      rw [parse, Yaml.parse, Node.ofText, htokens]
      rfl
    constructor
    · rintro ⟨h, -⟩
      rw [hparse] at h
      cases h
    · rintro ⟨-, h, -⟩
      rw [List.all_eq_true.2 h] at hallowed
      cases hallowed
  | true =>
    obtain ⟨k, hk, htokens⟩ := tokens_defaultText hallowed
    constructor
    · rintro ⟨h, hversion⟩
      cases hquoted : quotedScalar true k with
      | error fault =>
        rw [hquoted] at htokens
        rw [parse, Yaml.parse, Node.ofText, htokens] at h
        cases fault <;> cases h
      | ok found =>
        rw [hquoted] at htokens
        obtain ⟨hconfig, hliteral⟩ := isLiteral_of_quotedScalar hk htokens hquoted h hversion
        exact ⟨hconfig, List.all_eq_true.1 hallowed, hliteral⟩
    · rintro ⟨rfl, -, hliteral⟩
      obtain ⟨after, hquoted, hafter⟩ := exists_quotedScalar_of_isLiteral hliteral hk
      rw [hquoted] at htokens
      exact ⟨parse_of_tokens label htokens hafter, rfl⟩

/-- A backslash in a version is read as an escape. -/
theorem parse_defaultText_escaped :
    parse [] (defaultText ['\\', 't']) = .ok { version := ['\t'] } ∧
      ∀ config, parse [] (defaultText ['\\', 't']) = .ok config → config.version ≠ ['\\', 't'] := by
  obtain ⟨k, hk, htokens⟩ := tokens_defaultText (v := ['\\', 't']) (by decide)
  have hnext : k.next.rest = 't' :: '"' :: '\n' :: defaultTrailer := by
    rw [Cursor.next_rest, hk]
    rfl
  have hbehind : k.next.next.rest = [] ++ '"' :: '\n' :: defaultTrailer := by
    rw [Cursor.next_rest, hnext]
    rfl
  have hpiece : quotedPiece true k = .ok (some ['\t'], k.next.next) := by
    simp [quotedPiece, hk, escape, hnext, escaped?, isSeparator, isBreak, Except.map]
  obtain ⟨after, hend, hafter⟩ := exists_quotedScalar_of_isLiteral rfl hbehind
  have hquoted : quotedScalar true k = .ok (['\t'], after) :=
    quotedScalar_eq_append hpiece (by simp [hk, hbehind]) hend
  rw [hquoted] at htokens
  have hparse := parse_of_tokens [] htokens hafter
  refine ⟨hparse, fun config h ↦ ?_⟩
  obtain rfl := Except.ok.inj (h.symm.trans hparse)
  decide

end ProjectConfig

end YulPlus
