import Mathlib.Data.List.Infix
import YulPlus.Proofs.Yaml.Fetched

/-!
# Reading in front of an unindented line

What follows the version in a default configuration is a `Trailer`: lines that begin with a word and
hold no quotes, closing brackets or document marks. A text in front of it, as far as it is read,
does not draw the trailer into one of its scalars: a quoted scalar would not end, brackets would not
be closed, and outside of brackets a plain scalar does not reach into a line that is not indented.

So all scalars that are read in front of a trailer are shorter than the text there
(`Trailer.run_landmarks`), except a plain one that is the whole of it, and except behind a mark that
ends the document, which the trailer then stands behind. -/

namespace YulPlus

namespace Yaml

variable {s s' : Scanner} {c : Char} {rest tail x : Text} {tokens : List Token}

/-- A text that is shorter than `x`, or at most as long without a quote in front, or has no quotes
at all. -/
def Smaller (x text : Text) : Prop :=
  text.length < x.length ∨ text.length ≤ x.length ∧ text.head? ≠ some '"' ∨ '"' ∉ text

theorem Smaller.mono {x' text : Text} (h : Smaller x text) (hx : x.length ≤ x'.length) :
    Smaller x' text := by
  rcases h with h | ⟨h, hhead⟩ | h
  · exact .inl (by omega)
  · exact .inr (.inl ⟨by omega, hhead⟩)
  · exact .inr (.inr h)

/-- What a step reads in front of a line feed and a text behind it: something of the text `x` before
the line feed, or a scalar with a gap that reaches into the text behind it. -/
inductive InFront (s s' : Scanner) (x tail : Text) : Prop
  | sign (y : Text) (hlength : y.length < x.length) (hrest : s'.cursor.rest = y ++ '\n' :: tail)
    (hlandmarks : landmarks s'.tokens = landmarks s.tokens) (hblocks : 0 ∈ s.blocks → 0 ∈ s'.blocks)
  | mark (y : Text) (hlength : y.length < x.length) (hrest : s'.cursor.rest = y ++ '\n' :: tail)
    (hlandmarks : landmarks s'.tokens = .mark :: landmarks s.tokens)
  | scalar (y text : Text) (hlength : y.length < x.length)
    (hrest : s'.cursor.rest = y ++ '\n' :: tail)
    (hlandmarks : landmarks s'.tokens = .scalar text :: landmarks s.tokens)
    (hsmaller : Smaller x text) (hblocks : 0 ∈ s.blocks → 0 ∈ s'.blocks)
  | last (text : Text) (hrest : s'.cursor.rest <:+ tail)
    (hlandmarks : landmarks s'.tokens = .scalar text :: landmarks s.tokens)
    (hsmaller : s.depth = 0 → 0 ∈ s.blocks → Smaller x text) (hdepth : s.depth ≤ s'.depth)

/-- A step that a gap goes in front of. -/
theorem InFront.of_alike {s₀ : Scanner} {y : Text} (h : InFront s₀ s' y tail)
    (halike : Scanner.Alike { s with cursor := s.skipGaps.cursor } s₀) (hy : y.length ≤ x.length) :
    InFront s s' x tail := by
  have hlandmarks : landmarks s₀.tokens = landmarks s.tokens := halike.landmarks
  have hblocks : 0 ∈ s.blocks → 0 ∈ s₀.blocks := halike.blocks
  have hdepth : s₀.depth = s.depth := halike.depth
  cases h with
  | sign z hlength hrest hnew hkept =>
    exact .sign z (by omega) hrest (hnew.trans hlandmarks) (hkept ∘ hblocks)
  | mark z hlength hrest hnew =>
    exact .mark z (by omega) hrest (hnew.trans (congrArg _ hlandmarks))
  | scalar z text hlength hrest hnew hsmaller hkept =>
    exact .scalar z text (by omega) hrest (hnew.trans (congrArg _ hlandmarks)) (hsmaller.mono hy)
      (hkept ∘ hblocks)
  | last text hrest hnew hsmaller hkept =>
    exact .last text hrest (hnew.trans (congrArg _ hlandmarks))
      (fun hzero hmem ↦ (hsmaller (hdepth.trans hzero) (hblocks hmem)).mono hy) (hdepth ▸ hkept)

/-- A mark is three characters of which none is a line feed. -/
theorem exists_of_atDocumentMark {s : Text} (h : atDocumentMark s = true) :
    ∃ mark, s = mark ++ s.drop 3 ∧ mark ≠ [] ∧ '\n' ∉ mark := by
  have hprefix : ∀ mark : Text, mark.length = 3 → mark.isPrefixOf s = true →
      s = mark ++ s.drop 3 := by
    intro mark hlength hmark
    obtain ⟨rest, rfl⟩ := List.isPrefixOf_iff_prefix.1 hmark
    rw [← hlength, List.drop_left]
  simp only [atDocumentMark, Bool.and_eq_true, Bool.or_eq_true] at h
  rcases h.1 with hmark | hmark
  · exact ⟨_, hprefix _ rfl hmark, by simp, by decide⟩
  · exact ⟨_, hprefix _ rfl hmark, by simp, by decide⟩

/-- A text that begins with a word and has no quotes, closing brackets and document marks. -/
structure Trailer (tail : Text) : Prop where
  begins : ∃ c ∈ tail.head?, c.isLower = true
  other : ∀ c ∈ tail, c ∉ "\"']\x7d".toList
  marks : ∀ s ∈ tail.tails, atDocumentMark s = false

namespace Trailer

variable (htail : Trailer tail)

include htail

theorem exists_eq_cons : ∃ c rest, tail = c :: rest ∧ c.isLower = true := by
  obtain ⟨c, hhead, hc⟩ := htail.begins
  obtain ⟨rest, rfl⟩ := List.head?_eq_some_iff.1 hhead
  exact ⟨c, rest, rfl, hc⟩

theorem head : ∀ c ∈ tail.head?, isSeparator c = false := by
  obtain ⟨c, rest, rfl, hc⟩ := htail.exists_eq_cons
  simpa using isSeparator_of_isLower hc

/-- No gap begins at a trailer. -/
theorem skipGaps_eq (hs : s.cursor.rest = tail) : s.skipGaps = s := by
  obtain ⟨c, rest, rfl, hc⟩ := htail.exists_eq_cons
  exact Scanner.skipGaps_of_cons hs (isSeparator_of_isLower hc) (ne_of_isLower hc rfl)

/-- **A gap ends at a trailer at the latest.** -/
theorem skipGaps_in_front (hs : s.cursor.rest = x ++ '\n' :: tail) :
    (∃ y, s.skipGaps.cursor.rest = y ++ '\n' :: tail) ∨ s.skipGaps.cursor.rest = tail := by
  induction hn : x.length using Nat.strongRecOn generalizing s x with
  | ind n ih =>
    obtain ⟨y, hy⟩ := Scanner.exists_lineEnd hs
    have hlength := (Scanner.rest_lineEnd_isSuffix s.cursor).length_le
    rw [Scanner.skipGaps_eq]
    split
    · exact .inl ⟨y, hy⟩
    · next b after hb =>
      obtain ⟨breaks, hbreaks, hne, hall, -, -⟩ := Cursor.exists_of_lineBreak hb
      have hseparators : ∀ c ∈ breaks, isSeparator c = true :=
        fun c hc ↦ isSeparator_of_isBreak (hall c hc)
      rcases append_separators (hbreaks.symm.trans hy) hseparators htail.head with
        ⟨z, rfl, hz⟩ | ⟨hafter, -⟩
      · have hpos := List.length_pos_iff.2 hne
        rw [hs, hy] at hlength
        simp only [List.length_append, List.length_cons] at hlength
        exact ih z.length (by omega) hz rfl
      · rw [htail.skipGaps_eq hafter]
        exact .inr hafter

/-! ### Inside a trailer -/

theorem not_mem_of_isSuffix (hsuffix : c :: rest <:+ tail) : c ∉ "\"']\x7d".toList :=
  htail.other c (hsuffix.subset List.mem_cons_self)

/-- **What is read in a trailer**: a sign, or a scalar without quotes. -/
theorem fetches_inside (h : Scanner.Fetches s c rest s') (hrest : s.cursor.rest = c :: rest)
    (hsuffix : c :: rest <:+ tail) :
    s'.cursor.rest <:+ tail ∧ s.depth ≤ s'.depth ∧
      (c ∈ "[]\x7b\x7d,-?:".toList ∧ landmarks s'.tokens = landmarks s.tokens ∨
        ∃ text, '"' ∉ text ∧ landmarks s'.tokens = .scalar text :: landmarks s.tokens) := by
  have hc := htail.not_mem_of_isSuffix hsuffix
  cases h with
  | sign hsign hpasses hdepth =>
    refine ⟨?_, ?_, .inl ⟨hsign, hpasses.landmarks⟩⟩
    · rw [hpasses.cursor, Cursor.skip_rest, hrest]
      exact (List.suffix_cons c rest).trans hsuffix
    · rcases hdepth with hdepth | rfl | rfl
      · exact hdepth
      · exact absurd (by decide) hc
      · exact absurd (by decide) hc
  | mark _ hmark =>
    rw [htail.marks _ ((List.mem_tails _ _).2 hsuffix)] at hmark
    cases hmark
  | quoted double text hquote =>
    subst hquote
    cases double <;> exact absurd (by decide) hc
  | plain hplain hcursor hlandmarks hblocks hdepth =>
    obtain ⟨src, hsrc, -, hmem, -⟩ :=
      plainScalar_eq s.inFlow ((s.blocks.head?.map (· + 1)).getD 0) s.cursor
    refine ⟨?_, Nat.le_of_eq hdepth.symm, .inr ⟨_, fun hquote ↦ ?_, hlandmarks⟩⟩
    · rw [hcursor]
      exact .trans ⟨src, hsrc.symm⟩ (hrest ▸ hsuffix)
    · rcases hmem '"' hquote with hquote | hseparator
      · rw [hrest] at hquote
        exact htail.other '"' (hsuffix.subset hquote) (by decide)
      · cases hseparator

/-- Inside a trailer no bracket is closed, and no scalar with a quote is read. -/
theorem run_inside (hs : s.cursor.rest <:+ tail) (h : s.run = .ok tokens) :
    s.depth = 0 ∧ ∃ new, s.Adds tokens new ∧ ∀ text, .scalar text ∈ new → '"' ∉ text := by
  induction hn : s.cursor.rest.length using Nat.strongRecOn generalizing s with
  | ind n ih =>
    rcases Scanner.run_cases h with ⟨-, hfinish⟩ | ⟨s', hfetch, hless, hrun⟩
    · exact ⟨(Scanner.landmarks_of_finish hfinish).2, [], .nil_of_finish hfinish, by simp⟩
    · obtain ⟨s₀, c, rest, halike, hrest, hfetches⟩ := Scanner.exists_of_fetch hfetch
      obtain ⟨cursor, allowed, hgaps, hgap⟩ := s.exists_skipGaps
      have hsuffix : c :: rest <:+ tail := by
        have hcursor : s₀.cursor = cursor := by rw [halike.cursor, hgaps]
        rw [← hrest, hcursor]
        exact hgap.trans hs
      obtain ⟨hsuffix', hdepth, hadded⟩ := htail.fetches_inside hfetches hrest hsuffix
      obtain ⟨hzero, new, hnew, hquotes⟩ := ih _ (hn ▸ hless) hsuffix' hrun rfl
      have hdepth₀ : s₀.depth = s.depth := halike.depth
      refine ⟨by omega, ?_⟩
      rcases hadded with ⟨-, hlandmarks⟩ | ⟨text, hquote, hlandmarks⟩
      · exact ⟨new, hnew.of_eq (hlandmarks.trans halike.landmarks), hquotes⟩
      · refine ⟨_, hnew.cons (hlandmarks.trans (congrArg _ halike.landmarks)), fun text' h ↦ ?_⟩
        rcases List.mem_cons.1 h with heq | h
        · exact Landmark.scalar.inj heq ▸ hquote
        · exact hquotes text' h

/-! ### In front of a trailer -/

section

variable {double flow : Bool} {k after : Cursor} {text : Text}

/-- A quoted scalar in front of a trailer ends there, with fewer characters than stand there. -/
theorem quotedScalar_in_front (h : quotedScalar double k.next = .ok (text, after))
    (hk : k.rest = closingQuote double :: rest) (hx : k.rest = x ++ '\n' :: tail) :
    ∃ y, after.rest = y ++ '\n' :: tail ∧ y.length < x.length ∧ text.length < x.length := by
  obtain ⟨src, hsrc, hlength, -⟩ := quotedScalar_eq_ok h
  rw [Cursor.next_rest, hk, List.tail_cons] at hsrc
  have hwhole : (closingQuote double :: src ++ [closingQuote double]) ++ after.rest =
      x ++ '\n' :: tail := by
    rw [← hx, hk, hsrc]
    simp
  rcases append_eq_append_lineFeed hwhole with ⟨y, rfl, hy⟩ | ⟨z, hz, htail'⟩
  · simp only [List.length_append, List.length_cons]
    exact ⟨y, hy, by omega, by omega⟩
  · -- the closing quote would stand in the trailer
    have hlast : closingQuote double ∈ '\n' :: z := by
      have h := congrArg List.getLast? hz
      rw [List.getLast?_concat, List.getLast?_append_of_ne_nil _ (by simp)] at h
      exact List.mem_of_getLast? h.symm
    rcases List.mem_cons.1 hlast with hfeed | hmem
    · cases double <;> cases hfeed
    · exact absurd (by cases double <;> decide)
        (htail.other _ (htail' ▸ List.mem_append_left _ hmem))

/-- A plain scalar in front of a trailer does not begin with a quote, and has at most the characters
that stand there, unless it goes on in the trailer. -/
theorem startsPlain_in_front (hc : Scanner.startsPlain flow c rest = true) (hk : k.rest = c :: rest)
    (hx : k.rest = x ++ '\n' :: tail) (indent : Nat) :
    (plainScalar flow indent k).text.head? ≠ some '"' ∧
      ((∃ y, (plainScalar flow indent k).cursor.rest = y ++ '\n' :: tail ∧
          y.length < x.length ∧ (plainScalar flow indent k).text.length ≤ x.length) ∨
        (plainScalar flow indent k).cursor.rest <:+ tail ∧
          (flow = false → 0 < indent → (plainScalar flow indent k).text.length ≤ x.length)) := by
  obtain ⟨hword, hquote, hfeed⟩ := Scanner.plainWord_ne_nil_of_startsPlain hc
  obtain ⟨src, hsrc, hlength, -, hhead⟩ := plainScalar_eq flow indent k
  have hhead' : (plainScalar flow indent k).text.head? = some c := by
    rw [hhead (hk ▸ hword), hk, List.head?_cons]
  refine ⟨by simpa [hhead'] using hquote, ?_⟩
  rcases append_eq_append_lineFeed (hsrc.symm.trans hx) with ⟨y, rfl, hy⟩ | ⟨z, rfl, htail'⟩
  · have hpos := List.length_pos_of_mem (List.mem_of_head? hhead')
    simp only [List.length_append]
    exact .inl ⟨y, hy, by omega, by omega⟩
  · refine .inr ⟨⟨z, htail'.symm⟩, ?_⟩
    rintro rfl hindent
    exact (plainScalar_in_front hindent hx htail.head).1

end

/-- **What is read in front of a trailer.** -/
theorem inFront_of_fetches (h : Scanner.Fetches s c rest s') (hrest : s.cursor.rest = c :: rest)
    (hx : c :: rest = x ++ '\n' :: tail) : InFront s s' x tail := by
  have hfront : ∀ src, src ≠ [] → '\n' ∉ src → s.cursor.rest = src ++ s'.cursor.rest →
      ∃ y, y.length < x.length ∧ s'.cursor.rest = y ++ '\n' :: tail := by
    intro src hne hfeed hsrc
    obtain ⟨y, rfl, hy⟩ := append_of_not_mem ((hsrc.symm.trans hrest).trans hx) hfeed
    have hpos := List.length_pos_iff.2 hne
    exact ⟨y, by rw [List.length_append]; omega, hy⟩
  cases h with
  | sign hc hpasses hdepth =>
    have hfeed : '\n' ∉ [c] := by
      rintro hfeed
      obtain rfl := List.mem_singleton.1 hfeed
      revert hc
      decide
    obtain ⟨y, hlength, hy⟩ := hfront [c] (by simp) hfeed
      (by rw [hpasses.cursor, Cursor.skip_rest, hrest]; rfl)
    exact .sign y hlength hy hpasses.landmarks hpasses.blocks
  | mark hc hmark hcursor hlandmarks =>
    obtain ⟨mark, hsplit, hne, hfeed⟩ := exists_of_atDocumentMark hmark
    obtain ⟨y, hlength, hy⟩ := hfront mark hne hfeed
      (by rw [hcursor, Cursor.skip_rest, hrest]; exact hsplit)
    exact .mark y hlength hy hlandmarks
  | quoted double text hc htext hlandmarks hblocks hdepth =>
    obtain ⟨y, hy, hlength, hless⟩ :=
      htail.quotedScalar_in_front htext (hc ▸ hrest) (hrest.trans hx)
    exact .scalar y text hlength hy hlandmarks (.inl hless) (hblocks ▸ id)
  | plain hc hcursor hlandmarks hblocks hdepth =>
    obtain ⟨hhead, hends⟩ := htail.startsPlain_in_front hc hrest (hrest.trans hx)
      ((s.blocks.head?.map (· + 1)).getD 0)
    rw [← hcursor] at hends
    rcases hends with ⟨y, hy, hlength, hle⟩ | ⟨hsuffix, hle⟩
    · exact .scalar y _ hlength hy hlandmarks (.inr (.inl ⟨hle, hhead⟩)) (hblocks ▸ id)
    · refine .last _ hsuffix hlandmarks (fun hzero hmem ↦ .inr (.inl ⟨hle ?_ ?_, hhead⟩))
        (Nat.le_of_eq hdepth.symm)
      · simp [Scanner.inFlow, hzero]
      · cases hb : s.blocks with
        | nil => simp [hb] at hmem
        | cons => simp

/-- **What a step reads in front of a trailer**, and it does not end there. -/
theorem inFront_of_fetch (hs : s.cursor.rest = x ++ '\n' :: tail)
    (h : s.fetch = .ok (some s')) : InFront s s' x tail := by
  obtain ⟨s₀, c, rest, halike, hrest, hfetches⟩ := Scanner.exists_of_fetch h
  have hcursor : s₀.cursor = s.skipGaps.cursor := halike.cursor
  rcases htail.skipGaps_in_front hs with ⟨y, hy⟩ | hgap
  · have hlength : y.length ≤ x.length := by
      obtain ⟨cursor, allowed, hgaps, hsuffix⟩ := s.exists_skipGaps
      have hle := hsuffix.length_le
      rw [hgaps] at hy
      rw [hy, hs] at hle
      simpa using hle
    exact (htail.inFront_of_fetches hfetches hrest (hrest ▸ hcursor ▸ hy)).of_alike halike hlength
  · have hwhole : c :: rest = tail := hrest ▸ hcursor ▸ hgap
    obtain ⟨d, rest', htail', hd⟩ := htail.exists_eq_cons
    obtain ⟨hsuffix, hdepth, ⟨hsign, -⟩ | ⟨text, hquote, hlandmarks⟩⟩ :=
      htail.fetches_inside hfetches hrest (hwhole ▸ List.suffix_rfl)
    · obtain ⟨rfl, -⟩ := List.cons.inj (hwhole.trans htail')
      have hsigns : ∀ c ∈ "[]\x7b\x7d,-?:".toList, c.isLower = false := by decide
      exact absurd rfl (ne_of_isLower hd (hsigns c hsign))
    · exact (InFront.last text hsuffix hlandmarks (fun _ _ ↦ .inr (.inr hquote)) hdepth).of_alike
        halike (Nat.le_refl x.length)

theorem fetch_ne_none (hs : s.cursor.rest = x ++ '\n' :: tail) : s.fetch ≠ .ok none := by
  intro h
  have hnil := Scanner.rest_of_fetch_eq_none h
  rcases htail.skipGaps_in_front hs with ⟨y, hy⟩ | hgap
  · rw [hnil] at hy
    simp at hy
  · obtain ⟨c, rest, rfl, -⟩ := htail.exists_eq_cons
    rw [hnil] at hgap
    cases hgap

/-- Some scalar is read in front of a trailer, or in it. -/
theorem exists_scalar_of_run (hs : s.cursor.rest = x ++ '\n' :: tail) (h : s.run = .ok tokens) :
    ∃ new text, s.Adds tokens new ∧ .scalar text ∈ new := by
  induction hn : x.length using Nat.strongRecOn generalizing s x with
  | ind n ih =>
    rcases Scanner.run_cases h with ⟨hnone, -⟩ | ⟨s', hfetch, -, hrun⟩
    · exact absurd hnone (htail.fetch_ne_none hs)
    cases htail.inFront_of_fetch hs hfetch with
    | sign y hlength hrest hlandmarks =>
      obtain ⟨new, text, hnew, hmem⟩ := ih _ (hn ▸ hlength) hrest hrun rfl
      exact ⟨new, text, hnew.of_eq hlandmarks, hmem⟩
    | mark y hlength hrest hlandmarks =>
      obtain ⟨new, text, hnew, hmem⟩ := ih _ (hn ▸ hlength) hrest hrun rfl
      exact ⟨_, text, hnew.cons hlandmarks, List.mem_cons_of_mem _ hmem⟩
    | scalar y text _ _ hlandmarks =>
      obtain ⟨new, hnew⟩ := Scanner.exists_adds hrun
      exact ⟨_, text, hnew.cons hlandmarks, List.mem_cons_self⟩
    | last text _ hlandmarks =>
      obtain ⟨new, hnew⟩ := Scanner.exists_adds hrun
      exact ⟨_, text, hnew.cons hlandmarks, List.mem_cons_self⟩

/-- **The scalars that are read in front of a trailer are no longer than what stands there**, unless
one is read behind a mark. -/
theorem run_landmarks (hs : s.cursor.rest = x ++ '\n' :: tail) (hblocks : 0 ∈ s.blocks)
    (h : s.run = .ok tokens) :
    ∃ new, s.Adds tokens new ∧
      ((∃ text, [.mark, .scalar text].Sublist new) ∨
        ∀ text, .scalar text ∈ new → Smaller x text) := by
  induction hn : x.length using Nat.strongRecOn generalizing s x with
  | ind n ih =>
    rcases Scanner.run_cases h with ⟨hnone, -⟩ | ⟨s', hfetch, -, hrun⟩
    · exact absurd hnone (htail.fetch_ne_none hs)
    cases htail.inFront_of_fetch hs hfetch with
    | sign y hlength hrest hlandmarks hkept =>
      obtain ⟨new, hnew, hall⟩ := ih _ (hn ▸ hlength) hrest (hkept hblocks) hrun rfl
      exact ⟨new, hnew.of_eq hlandmarks,
        hall.imp_right fun hall text hmem ↦ (hall text hmem).mono hlength.le⟩
    | mark y hlength hrest hlandmarks =>
      obtain ⟨new, text, hnew, hmem⟩ := htail.exists_scalar_of_run hrest hrun
      exact ⟨_, hnew.cons hlandmarks, .inl ⟨text, (List.singleton_sublist.2 hmem).cons_cons _⟩⟩
    | scalar y text hlength hrest hlandmarks hsmaller hkept =>
      obtain ⟨new, hnew, hall⟩ := ih _ (hn ▸ hlength) hrest (hkept hblocks) hrun rfl
      refine ⟨_, hnew.cons hlandmarks, hall.imp (fun ⟨t, ht⟩ ↦ ⟨t, ht.cons _⟩) fun hall t hmem ↦ ?_⟩
      rcases List.mem_cons.1 hmem with heq | hmem
      · exact Landmark.scalar.inj heq ▸ hsmaller
      · exact (hall t hmem).mono hlength.le
    | last text hrest hlandmarks hsmaller hdepth =>
      obtain ⟨hzero, new, hnew, hquotes⟩ := htail.run_inside hrest hrun
      refine ⟨_, hnew.cons hlandmarks, .inr fun t hmem ↦ ?_⟩
      rcases List.mem_cons.1 hmem with heq | hmem
      · exact Landmark.scalar.inj heq ▸ hsmaller (by omega) hblocks
      · exact .inr (.inr (hquotes t hmem))

end Trailer

end Yaml

end YulPlus
