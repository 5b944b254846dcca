import Mathlib.Logic.Relation
import YulPlus.Proofs.Artifact.Codes

/-!
# What comes of an answer

The number of contract objects of the compiled source decides what comes of an answer. Without any
object the errors are reported, or their absence is; with several, all of them are named; a single
one gives an artifact, if its codes pass the check (`synthesize_outcome`).

So most of an answer has no influence: `CompilerOutput.Immaterial` are the changes that leave the
outcome as it is, in both directions and any number of them. -/

namespace YulPlus

open Text

/-! ### Sorted names -/

namespace Path

variable {s t u : Text}

theorem textLE_total : ∀ s t : Text, (textLE s t || textLE t s) = true
  | [], _ => rfl
  | _ :: _, [] => rfl
  | c :: s, d :: t => by
    rcases eq_or_ne c d with rfl | hne
    · simpa [textLE] using textLE_total s t
    · have hnat : c.toNat ≠ d.toNat := fun h ↦ hne (Char.toNat_inj.mp h)
      simp only [textLE, hne, hne.symm, if_false, Bool.or_eq_true, decide_eq_true_eq]
      omega

theorem textLE_trans (h : textLE s t = true) (h' : textLE t u = true) : textLE s u = true := by
  induction s generalizing t u with
  | nil => rfl
  | cons c s ih =>
    match t, u with
    | [], _ => cases h
    | _ :: _, [] => cases h'
    | d :: t, e :: u =>
      simp only [textLE] at h h' ⊢
      -- By whether the first characters of two neighbours agree.
      split at h <;> split at h'
      · next hcd hde =>
        subst hcd hde
        simpa using ih h h'
      · next hcd hde =>
        subst hcd
        simpa [hde] using h'
      · next hcd hde =>
        subst hde
        simpa [hcd] using h
      · simp only [decide_eq_true_eq] at h h'
        have hce : c ≠ e := by
          rintro rfl
          omega
        simp only [hce, if_false, decide_eq_true_eq]
        omega

/-- Sorting leaves every name, in order. -/
theorem exists_sorted (names : List Text) : ∃ sorted, sorted = names.mergeSort textLE ∧
    sorted.Perm names ∧ sorted.Pairwise (textLE · ·) :=
  ⟨_, rfl, List.mergeSort_perm _ _,
    @List.pairwise_mergeSort _ textLE (fun _ _ _ ↦ textLE_trans) textLE_total names⟩

end Path

/-! ### What has no influence -/

/-- A change to an answer that leaves what comes of it as it is. -/
inductive CompilerOutput.Immaterial : CompilerOutput → CompilerOutput → Prop
  /-- A warning is added. -/
  | warning {contracts : List (Text × List (Text × ContractOutput))}
      {before after : List Diagnostic} {d : Diagnostic} (h : d.severity = "warning".toList) :
      Immaterial ⟨contracts, before ++ after⟩ ⟨contracts, before ++ d :: after⟩
  /-- Beside a contract object, any diagnostic is added. -/
  | diagnostic {contracts : List (Text × List (Text × ContractOutput))}
      {before after : List Diagnostic} {d : Diagnostic}
      (h : (CompilerOutput.mk contracts (before ++ after)).objects ≠ []) :
      Immaterial ⟨contracts, before ++ after⟩ ⟨contracts, before ++ d :: after⟩
  /-- The contracts of another file are added. -/
  | otherFile {before after : List (Text × List (Text × ContractOutput))}
      {diagnostics : List Diagnostic} {file : Text} {objects : List (Text × ContractOutput)}
      (h : file ≠ targetFile) :
      Immaterial ⟨before ++ after, diagnostics⟩ ⟨before ++ (file, objects) :: after, diagnostics⟩
  /-- A single object gets another name. -/
  | renamed {before after : List (Text × List (Text × ContractOutput))}
      {diagnostics : List Diagnostic} {name name' : Text} {contract : ContractOutput} :
      Immaterial ⟨before ++ (targetFile, [(name, contract)]) :: after, diagnostics⟩
        ⟨before ++ (targetFile, [(name', contract)]) :: after, diagnostics⟩

section

variable {sourceName : Text} {output output' : CompilerOutput} {interface : Option Interface}

/-- Only the objects count, and without any of them the errors. -/
theorem synthesize_congr (hobjects : output'.objects = output.objects)
    (herrors : output.objects = [] →
      Diagnostic.errors output'.diagnostics = Diagnostic.errors output.diagnostics) :
    synthesize sourceName output' interface = synthesize sourceName output interface := by
  unfold synthesize
  rw [hobjects]
  split
  · next hnil => rw [herrors hnil]
  · rfl
  · rfl

theorem synthesize_of_none (h : output.objects = [])
    (herrors : Diagnostic.errors output.diagnostics = []) :
    synthesize sourceName output interface = .error (.noContract sourceName) := by
  simp only [synthesize, h, herrors]

theorem synthesize_of_errors (h : output.objects = [])
    (herrors : Diagnostic.errors output.diagnostics ≠ []) :
    synthesize sourceName output interface =
      .error (.reported sourceName (Diagnostic.errors output.diagnostics)) := by
  obtain ⟨d, ds, hcons⟩ := List.exists_cons_of_ne_nil herrors
  simp only [synthesize, h, hcons]

theorem synthesize_of_single {name : Text} {contract : ContractOutput}
    (h : output.objects = [(name, contract)]) :
    synthesize sourceName output interface =
      match artifactOf sourceName ((interface.map Interface.abi).getD []) contract with
      | .valid artifact => .ok artifact
      | .invalid faults => .error (.invalidArtifact sourceName faults) := by
  cases hartifact : artifactOf sourceName ((interface.map Interface.abi).getD []) contract <;>
    simp only [synthesize, h, hartifact]

theorem synthesize_of_several (h : 2 ≤ output.objects.length) :
    synthesize sourceName output interface =
      .error (.manyContracts sourceName ((output.objects.map (·.1)).mergeSort Path.textLE)) := by
  match hobjects : output.objects with
  | [] | [_] => simp [hobjects] at h
  | _ :: _ :: _ => simp only [synthesize, hobjects]

theorem CompilerOutput.Immaterial.synthesize_eq (h : output.Immaterial output') :
    synthesize sourceName output' interface = synthesize sourceName output interface := by
  cases h with
  | warning h =>
    refine synthesize_congr rfl fun _ ↦ ?_
    simp [Diagnostic.errors, Diagnostic.isWarning, h]
  | diagnostic h => exact synthesize_congr rfl fun hnil ↦ absurd hnil h
  | otherFile h => exact synthesize_congr (by simp [objects, h]) fun _ ↦ rfl
  | @renamed before after diagnostics name name' contract =>
    -- The name is not looked at, unless an earlier entry of the file hides this one.
    by_cases hbefore : (before.find? fun entry ↦ entry.1 = targetFile).isSome
    · refine synthesize_congr ?_ fun _ ↦ rfl
      obtain ⟨entry, hentry⟩ := Option.isSome_iff_exists.mp hbefore
      simp [objects, List.find?_append, hentry]
    · have hnone := Option.not_isSome_iff_eq_none.mp hbefore
      have hsingle : ∀ name, (CompilerOutput.mk
          (before ++ (targetFile, [(name, contract)]) :: after) diagnostics).objects =
            [(name, contract)] :=
        fun name ↦ by simp [objects, List.find?_append, hnone]
      rw [synthesize_of_single (hsingle name), synthesize_of_single (hsingle name')]

theorem synthesize_eq_of_eqvGen (h : Relation.EqvGen CompilerOutput.Immaterial output output') :
    synthesize sourceName output' interface = synthesize sourceName output interface := by
  induction h with
  | rel _ _ h => exact h.synthesize_eq
  | refl _ => rfl
  | symm _ _ _ ih => exact ih.symm
  | trans _ _ _ _ _ ih ih' => exact ih'.trans ih

end

/-- **What comes of an answer.** A single object gives an artifact exactly if both codes pass the
check, which means plain hexadecimal where no line feed is reported. -/
theorem synthesize_outcome (sourceName : Text) (output : CompilerOutput)
    (interface : Option Interface) :
    let errors := output.diagnostics.filter fun d ↦ d.severity ≠ "warning".toList
    (output.objects = [] → errors ≠ [] →
      synthesize sourceName output interface = .error (.reported sourceName errors) ∧
        (SynthesisError.reported sourceName errors).message =
          "Compilation of '".toList ++ sourceName ++ "' failed:\n".toList ++
            joinWith ['\n'] (errors.map Diagnostic.text)) ∧
      (output.objects = [] → errors = [] →
        synthesize sourceName output interface = .error (.noContract sourceName)) ∧
      (2 ≤ output.objects.length → ∃ names, names.Perm (output.objects.map (·.1)) ∧
        names.Pairwise (Path.textLE · ·) ∧
        synthesize sourceName output interface = .error (.manyContracts sourceName names) ∧
        (SynthesisError.manyContracts sourceName names).message =
          "Compiler produced ".toList ++ decimal output.objects.length ++
            " contract objects for '".toList ++ sourceName ++ "': ".toList ++
            joinWith ", ".toList names) ∧
      (∀ name contract, output.objects = [(name, contract)] →
        ((∃ faults, synthesize sourceName output interface =
          .error (.invalidArtifact sourceName faults)) ∧
          ¬ (Artifact.IsAccepted (Artifact.emptyBytecode ++ contract.bytecode.object) ∧
            Artifact.IsAccepted (Artifact.emptyBytecode ++ contract.deployedObject)) ∨
        ∃ a, synthesize sourceName output interface = .ok a ∧
          Artifact.IsAccepted a.bytecode ∧ Artifact.IsAccepted a.deployedBytecode ∧
          a.bytecode = Artifact.emptyBytecode ++ contract.bytecode.object ∧
          a.deployedBytecode = Artifact.emptyBytecode ++ contract.deployedObject ∧
          a.functionDebugData = contract.deployedBytecode.bind (·.functionDebugData)) ∧
        ∀ object ∈ [contract.bytecode.object, contract.deployedObject], '\n' ∉ object →
          (Artifact.IsAccepted (Artifact.emptyBytecode ++ object) ↔
            Artifact.IsPlain (Artifact.emptyBytecode ++ object))) ∧
      ∀ output', Relation.EqvGen CompilerOutput.Immaterial output output' →
        synthesize sourceName output' interface = synthesize sourceName output interface := by
  intro errors
  have herrors : Diagnostic.errors output.diagnostics = errors :=
    List.filter_congr fun _ _ ↦ decide_not.symm
  refine ⟨fun hobjects hsome ↦ ⟨?_, rfl⟩, fun hobjects hnone ↦ ?_, fun hseveral ↦ ?_,
    fun name contract hsingle ↦ ?_, fun output' h ↦ ?_⟩
  · rw [← herrors] at hsome ⊢
    exact synthesize_of_errors hobjects hsome
  · exact synthesize_of_none hobjects (herrors.trans hnone)
  · obtain ⟨names, hnames, hperm, hsorted⟩ := Path.exists_sorted (output.objects.map (·.1))
    refine ⟨names, hperm, hsorted, hnames ▸ synthesize_of_several hseveral, ?_⟩
    have hlength : names.length = output.objects.length := by
      rw [hperm.length_eq, List.length_map]
    rw [← hlength]
    rfl
  · refine ⟨?_, fun object _ ↦ Artifact.isAccepted_iff_isPlain⟩
    rw [synthesize_of_single hsingle]
    cases hartifact : artifactOf sourceName ((interface.map Interface.abi).getD []) contract with
    | valid a =>
      obtain ⟨hbytecode, hdeployed, rfl⟩ := artifactOf_eq_valid_iff.mp hartifact
      exact .inr ⟨_, rfl, hbytecode, hdeployed, rfl, rfl, rfl⟩
    | invalid faults =>
      refine .inl ⟨⟨faults, rfl⟩, fun ⟨hbytecode, hdeployed⟩ ↦ ?_⟩
      cases hartifact.symm.trans (artifactOf_eq_valid_iff.mpr ⟨hbytecode, hdeployed, rfl⟩)
  · exact synthesize_eq_of_eqvGen h

/-- Every kind of answer: no object, with an error or with a warning only, two objects, and a single
object that gets another name, a warning and another file beside it. -/
theorem synthesize_outcome_edited :
    let warning : Diagnostic := { severity := "warning".toList }
    let error : Diagnostic := { severity := "error".toList, message := ['m'] }
    let contract : ContractOutput := ⟨⟨"60".toList, none⟩, some ⟨"00".toList, some []⟩⟩
    let single : CompilerOutput := ⟨[(targetFile, [(['a'], contract)])], []⟩
    let edited : CompilerOutput := ⟨[(['x'], []), (targetFile, [(['b'], contract)])], [warning]⟩
    synthesize ['s'] ⟨[], [warning, error]⟩ none = .error (.reported ['s'] [error]) ∧
      synthesize ['s'] ⟨[], [warning]⟩ none = .error (.noContract ['s']) ∧
      (∃ names, names.Perm [['b'], ['a']] ∧
        synthesize ['s'] ⟨[(targetFile, [(['b'], contract), (['a'], contract)])], []⟩ none =
          .error (.manyContracts ['s'] names)) ∧
      ∃ a, synthesize ['s'] single none = .ok a ∧ synthesize ['s'] edited none = .ok a ∧
        a.bytecode = "0x60".toList ∧ a.functionDebugData = some [] := by
  intro warning error contract single edited
  refine ⟨?_, ?_, ?_, ?_⟩
  · obtain ⟨hreported, -, -, -, -⟩ := synthesize_outcome ['s'] ⟨[], [warning, error]⟩ none
    exact (hreported rfl (by decide)).1
  · obtain ⟨-, hnone, -, -, -⟩ := synthesize_outcome ['s'] ⟨[], [warning]⟩ none
    exact hnone rfl (by decide)
  · obtain ⟨-, -, hseveral, -, -⟩ := synthesize_outcome ['s']
      ⟨[(targetFile, [(['b'], contract), (['a'], contract)])], []⟩ none
    obtain ⟨names, hperm, -, hnames, -⟩ := hseveral (by decide)
    exact ⟨names, hperm, hnames⟩
  · obtain ⟨-, -, -, hsingle, hedited⟩ := synthesize_outcome ['s'] single none
    have hedits : Relation.EqvGen CompilerOutput.Immaterial single edited :=
      .trans _ _ _ (.rel _ _ (@CompilerOutput.Immaterial.renamed [] [] [] ['a'] ['b'] contract))
        (.trans _ _ _ (.rel _ _ (@CompilerOutput.Immaterial.otherFile [] _ _ ['x'] [] (by decide)))
          (.rel _ _ (@CompilerOutput.Immaterial.warning _ [] [] warning rfl)))
    have hplain : Artifact.IsPlain "0x60".toList ∧ Artifact.IsPlain "0x00".toList :=
      ⟨⟨"60".toList, rfl, by decide⟩, ⟨"00".toList, rfl, by decide⟩⟩
    rcases (hsingle ['a'] contract rfl).1 with ⟨-, hnot⟩ | ⟨a, ha, -, -, hbytecode, -, hdebug⟩
    · exact absurd ⟨⟨_, hplain.1, .inl rfl⟩, _, hplain.2, .inl rfl⟩ hnot
    · exact ⟨a, ha, (hedited edited hedits).trans ha, hbytecode, hdebug⟩

/-- A line feed behind the code that a contract deploys does not keep it from being an artifact. -/
theorem synthesize_accepts_lineFeed :
    let contract : ContractOutput := ⟨⟨"60".toList, none⟩, some ⟨"60\n".toList, none⟩⟩
    let output : CompilerOutput := ⟨[(targetFile, [(['a'], contract)])], []⟩
    ∃ a, synthesize "a.yul".toList output none = .ok a ∧ a.deployedBytecode = "0x60\n".toList ∧
      ¬ Artifact.IsPlain (Artifact.emptyBytecode ++ contract.deployedObject) := by
  intro contract output
  refine ⟨_, rfl, rfl, fun h ↦ ?_⟩
  exact h.lineFeed_notMem (by decide)

end YulPlus
