import YulPlus.Lowering.Edit
import YulPlus.Proofs.Source.Placement

/-!
# Applying edits

`Edit.applyFrom` walks once over a text and subtracts offsets on the way, so it is only right for
edits that come in order. `Edit.Within a es b` is this condition: the edits stand one behind the
other between the offsets `a` and `b`, and each reaches beyond everything before it. Lists of edits
that are within neighbouring stretches may be put together (`Within.append`), which is how the edits
of a program are seen to be in order.

What edits in order do is `Edit.Spliced`, a relation between two texts with no offsets subtracted:
both are cut into pieces, the pieces outside of the edits are the same, and a stretch that an edit
covers has the text of the edit on the other side. `spliced_applyFrom` says that the walk does this.
The walk may also be taken apart wherever no edit reaches across (`applyAll_slices`).
-/

namespace YulPlus

open Text

namespace Edit

variable {a b c o n : Nat} {e : Edit} {es fs : List Edit} {s source : Text}

/-- The edits stand in order between the offsets `a` and `b`. -/
inductive Within : Nat → List Edit → Nat → Prop
  | nil {a b : Nat} (h : a ≤ b) : Within a [] b
  | cons {a b : Nat} {e : Edit} {es : List Edit} (hstart : a ≤ e.start) (hle : e.start ≤ e.stop)
      (hlt : a < e.stop) (hes : Within e.stop es b) : Within a (e :: es) b

/-- The second text is the first one with the edits made, where `o` is the offset of both. -/
inductive Spliced : Nat → List Edit → Text → Text → Prop
  | done {o : Nat} {s : Text} : Spliced o [] s s
  | edit {o : Nat} {e : Edit} {es : List Edit} {kept cut s out : Text}
      (hstart : e.start = o + kept.length) (hstop : e.stop = e.start + cut.length)
      (hes : Spliced e.stop es s out) :
      Spliced o (e :: es) (kept ++ cut ++ s) (kept ++ e.text ++ out)

namespace Within

theorem le (h : Within a es b) : a ≤ b := by
  induction h with
  | nil h => exact h
  | cons hstart hle _ _ ih => omega

theorem append (h : Within a es b) (h' : Within b fs c) : Within a (es ++ fs) c := by
  induction h with
  | @nil a b hle =>
    cases h' with
    | nil h' => exact .nil (by omega)
    | cons hstart hle' hlt hes => exact .cons (by omega) hle' (by omega) hes
  | cons hstart hle hlt _ ih => exact .cons hstart hle hlt (ih h')

/-- A single edit. -/
theorem singleton (hstart : a ≤ e.start) (hle : e.start ≤ e.stop) (hlt : a < e.stop)
    (hb : e.stop ≤ b) : Within a [e] b :=
  .cons hstart hle hlt (.nil hb)

theorem mono_left (h : Within b es c) (hab : a ≤ b) : Within a es c :=
  (Within.nil hab).append h

theorem bounds (h : Within a es b) :
    ∀ e ∈ es, a ≤ e.start ∧ e.start ≤ e.stop ∧ a < e.stop ∧ e.stop ≤ b := by
  induction h with
  | nil => simp
  | @cons a b e es hstart hle hlt hes ih =>
    intro f hf
    have := hes.le
    rcases List.mem_cons.1 hf with rfl | hf
    · exact ⟨hstart, hle, hlt, by omega⟩
    · obtain ⟨h₁, h₂, h₃, h₄⟩ := ih f hf
      exact ⟨by omega, h₂, by omega, h₄⟩

/-- **Edits in order do not overlap**, and no two of them are the same. -/
theorem pairwise (h : Within a es b) :
    es.Pairwise fun e f ↦ e.stop ≤ f.start ∧ e.stop < f.stop := by
  induction h with
  | nil => exact .nil
  | cons _ _ _ hes ih =>
    refine .cons (fun f hf ↦ ?_) ih
    obtain ⟨hstart, -, hlt, -⟩ := hes.bounds f hf
    exact ⟨hstart, hlt⟩

end Within

/-- **The walk makes the edits.** -/
theorem spliced_applyFrom (h : Within o es n) (hn : n ≤ o + s.length) :
    Spliced o es s (applyFrom o s es) := by
  induction h generalizing s with
  | nil => exact .done
  | @cons o n e es hstart hle hlt hes ih =>
    have hstop := hes.le
    have hs : s.take (e.start - o) ++ slice s (e.start - o) (e.stop - o) ++ s.drop (e.stop - o) =
        s := by
      rw [List.append_assoc, slice_append_drop (by omega), List.take_append_drop]
    have hrest := @ih (s.drop (e.stop - o)) (by simp; omega)
    have hedit : Spliced o (e :: es)
        (s.take (e.start - o) ++ slice s (e.start - o) (e.stop - o) ++ s.drop (e.stop - o))
        (s.take (e.start - o) ++ e.text ++ applyFrom e.stop (s.drop (e.stop - o)) es) := by
      refine .edit ?_ ?_ hrest
      · simp
        omega
      · rw [length_slice (by omega)]
        omega
    rwa [hs] at hedit

/-- The walk over an edit. -/
theorem applyFrom_drop_cons (hstart : a ≤ e.start) (hle : e.start ≤ e.stop) :
    applyFrom a (source.drop a) (e :: es) =
      slice source a e.start ++ e.text ++ applyFrom e.stop (source.drop e.stop) es := by
  rw [applyFrom, List.drop_drop, slice_eq_take]
  congr 4
  omega

/-- The walk keeps what stands in front of the first edit. -/
theorem applyFrom_drop_skip (hab : a ≤ b) (h : Within b es n) :
    applyFrom a (source.drop a) es = slice source a b ++ applyFrom b (source.drop b) es := by
  cases h with
  | nil => exact (slice_append_drop hab).symm
  | @cons _ _ e es hstart hle hlt hes =>
    rw [applyFrom_drop_cons (by omega) hle, applyFrom_drop_cons hstart hle, ← List.append_assoc,
      ← List.append_assoc, slice_append_slice hab hstart]

/-- **The walk may be cut** where no edit reaches across. -/
theorem applyFrom_append {m : Nat} {u v : Text}
    (hes : es.Pairwise fun e f ↦ e.stop ≤ f.start)
    (hbounds : ∀ e ∈ es, m ≤ e.start ∧ e.start ≤ e.stop ∧ e.stop ≤ m + u.length)
    (hfs : ∀ e ∈ fs, m + u.length ≤ e.start ∧ e.start ≤ e.stop) :
    applyFrom m (u ++ v) (es ++ fs) = applyFrom m u es ++ applyFrom (m + u.length) v fs := by
  induction es generalizing m u with
  | nil =>
    cases fs with
    | nil => rfl
    | cons f fs =>
      obtain ⟨hstart, hle⟩ := hfs f (by simp)
      have htake : (u ++ v).take (f.start - m) = u ++ v.take (f.start - (m + u.length)) := by
        rw [List.take_append, List.take_of_length_le (by omega), Nat.sub_sub]
      have hdrop : (u ++ v).drop (f.stop - m) = v.drop (f.stop - (m + u.length)) := by
        rw [List.drop_append, List.drop_eq_nil_of_le (by omega), Nat.sub_sub, List.nil_append]
      rw [List.nil_append, applyFrom, applyFrom, applyFrom, htake, hdrop]
      simp
  | cons e es ih =>
    obtain ⟨hstart, hle, hstop⟩ := hbounds e (by simp)
    obtain ⟨hlater, hes⟩ := List.pairwise_cons.1 hes
    have htake : (u ++ v).take (e.start - m) = u.take (e.start - m) :=
      List.take_append_of_le_length (by omega)
    have hdrop : (u ++ v).drop (e.stop - m) = u.drop (e.stop - m) ++ v :=
      List.drop_append_of_le_length (by omega)
    have hlength : e.stop + (u.drop (e.stop - m)).length = m + u.length := by
      simp
      omega
    have hrest := @ih e.stop (u.drop (e.stop - m)) hes (fun f hf ↦ by
      obtain ⟨-, hle', hstop'⟩ := hbounds f (by simp [hf])
      exact ⟨hlater f hf, hle', by omega⟩) (by rwa [hlength])
    rw [List.cons_append, applyFrom, applyFrom, htake, hdrop, hrest, hlength]
    simp

/-- The edits are in order, and they lie between the offsets `m` and `n`. -/
structure Between (m n : Nat) (es : List Edit) : Prop where
  pairwise : es.Pairwise fun e f ↦ e.stop ≤ f.start
  bounds : ∀ e ∈ es, m ≤ e.start ∧ e.start ≤ e.stop ∧ e.stop ≤ n

theorem Within.between {m n n' : Nat} (h : Within m es n) (hn : n ≤ n') :
    Between m n' es := by
  refine ⟨h.pairwise.imp fun hef ↦ hef.1, fun e he ↦ ?_⟩
  obtain ⟨hstart, hle, -, hstop⟩ := h.bounds e he
  exact ⟨hstart, hle, by omega⟩

theorem Between.mono {m m' n n' : Nat} (h : Between m n es) (hm : m' ≤ m) (hn : n ≤ n') :
    Between m' n' es := by
  refine ⟨h.pairwise, fun e he ↦ ?_⟩
  obtain ⟨hstart, hle, hstop⟩ := h.bounds e he
  exact ⟨by omega, hle, by omega⟩

/-- The walk over a slice, in front of more. -/
theorem applyFrom_drop_append (hab : a ≤ b) (hb : b ≤ source.length) (hes : Between a b es)
    (hfs : ∀ e ∈ fs, b ≤ e.start ∧ e.start ≤ e.stop) :
    applyFrom a (source.drop a) (es ++ fs) =
      applySlice a b es source ++ applyFrom b (source.drop b) fs := by
  have hlength : a + (slice source a b).length = b := by
    rw [length_slice hb]
    omega
  have hwalk := applyFrom_append (u := slice source a b) (v := source.drop b) hes.pairwise
    (by rw [hlength]; exact hes.bounds) (by rw [hlength]; exact hfs)
  rw [slice_append_drop hab, hlength] at hwalk
  exact hwalk

/-- **The walk goes slice by slice.** -/
theorem applyAll_slices {front inside back : List Edit} (hab : a ≤ b) (hb : b ≤ source.length)
    (hfront : Between 0 a front) (hinside : Between a b inside)
    (hback : Between b source.length back) :
    applyAll (front ++ (inside ++ back)) source = applySlice 0 a front source ++
      (applySlice a b inside source ++ applySlice b source.length back source) := by
  have hlast : applySlice b source.length back source = applyFrom b (source.drop b) back := by
    rw [applySlice, List.take_length]
  have hlater : ∀ e ∈ back, b ≤ e.start ∧ e.start ≤ e.stop := fun e he ↦
    ⟨(hback.bounds e he).1, (hback.bounds e he).2.1⟩
  rw [hlast, ← applyFrom_drop_append hab hb hinside hlater]
  refine applyFrom_drop_append (Nat.zero_le a) (hab.trans hb) hfront fun e he ↦ ?_
  rcases List.mem_append.1 he with he | he
  · exact ⟨(hinside.bounds e he).1, (hinside.bounds e he).2.1⟩
  · exact ⟨hab.trans (hlater e he).1, (hlater e he).2⟩

end Edit

end YulPlus
