import YulPlus.Compiler.Input
import YulPlus.Proofs.Json.RoundTrip

/-!
# The compiler input on the wire

Whoever reads the compiler input as JSON gets one object that holds the source as it is, character
for character, and the optimizer details as they were set (`parseWithin_wireText`). The details are
left out if and only if they are not set: what is null inside of them is kept, since only the one
entry of the input can be missing. -/

namespace YulPlus

open Text Json

namespace CompilerInput

variable {limit : Option Nat} {details : Option Details}

/-- The entry of the optimizer details, if they are set. -/
theorem optimizerDetails_eq (details : Option Details) :
    optimizerDetails details = Value.fields
      (("yul", .bool true) :: (details.map fun d ↦ ("yulDetails", Value.record d)).toList) := by
  cases details <;> rfl

theorem portable_outputSelection : Portable limit outputSelection := by
  have hstar : Portable limit (.list [.text ['*']]) := .list _ (by simpa using .text ['*'])
  refine .fields (by simp) ?_
  simpa using Portable.fields (by simp) (by simp [hstar])

theorem portable_optimizerDetails (h : ∀ d ∈ details, Portable limit (.record d)) :
    Portable limit (optimizerDetails details) := by
  rw [optimizerDetails_eq]
  cases details with
  | none => exact .fields (by simp) (by simpa using .bool true)
  | some d => exact .fields (by simp) (by simpa using ⟨.bool true, h d rfl⟩)

/-- An input is portable if its details are; the reader has to take a number of one digit. -/
theorem portable_toValue {input : CompilerInput} (hlimit : ∀ most ∈ limit, 0 < most)
    (h : ∀ d ∈ input.details, Portable limit (.record d)) : Portable limit input.toValue := by
  have hzero : isOversized limit (Nat.toDigits 10 (0 : Int).natAbs) = false := by
    cases limit with
    | none => rfl
    | some most =>
      have hmost : 0 < most := hlimit most rfl
      simpa [isOversized] using Nat.ne_of_gt hmost
  have hcontent : Portable limit (.fields [("content", .text input.content)]) :=
    .fields (by simp) (by simpa using .text _)
  have hsources : Portable limit
      (.record [(targetFile, .fields [("content", .text input.content)])]) :=
    .record _ (by simp) (by simpa using hcontent)
  have hoptimizer : Portable limit (.fields
      [("enabled", .bool true), ("runs", .int 0), ("details", optimizerDetails input.details)]) :=
    .fields (by simp) (by simpa using ⟨.bool true, .int 0 hzero, portable_optimizerDetails h⟩)
  have hsettings : Portable limit (.fields
      [("outputSelection", outputSelection),
        ("optimizer", .fields
          [("enabled", .bool true), ("runs", .int 0),
            ("details", optimizerDetails input.details)])]) :=
    .fields (by simp) (by simpa using ⟨portable_outputSelection, hoptimizer⟩)
  exact .fields (by simp) (by simpa using ⟨.text _, hsources, hsettings⟩)

/-- **The compiler gets the source and the details as they are.** The text of an input is one JSON
object: the language, the source under its one name, the request for every output, and an optimizer
that is on with no runs, whose details are those that are set. -/
theorem parseWithin_wireText (content : Text) (settings : BuildSettings)
    (hlimit : ∀ most ∈ limit, 0 < most)
    (hdetails : ∀ d ∈ settings.details, Portable limit (.record d)) :
    parseWithin limit (ofSource content settings).wireText = .ok (.fields
      [ ("language", .text "Yul".toList),
        ("sources", .fields [("Target.yul", .fields [("content", .text content)])]),
        ("settings", .fields
          [ ("outputSelection", .fields [("*", .fields
              [("*", .list [.text ['*']]), ("", .list [.text ['*']])])]),
            ("optimizer", .fields
              [ ("enabled", .bool true),
                ("runs", .int 0),
                ("details", .fields (("yul", .bool true) :: (settings.details.map fun d ↦
                  ("yulDetails", Value.record d)).toList)) ]) ]) ]) := by
  have hread : parseWithin limit (compact (ofSource content settings).toValue) =
      .ok (ofSource content settings).toValue :=
    parseWithin_compact (portable_toValue hlimit hdetails)
  rw [wireText, hread, toValue, optimizerDetails_eq]
  rfl

/-- Quotes, a backslash, a line break, a control and a character beyond U+FFFF in the source; a null
and an empty key in the details. -/
theorem parse_wireText_nested :
    let content : Text := ['"', '\\', '\n', '\x01', '😀']
    let details : Details := [(['s'], .null), ([], .list [.int (-7), .record [(['"'], .null)]])]
    (∀ most ∈ some Decimal.maxDigits, 0 < most) ∧
      (∀ d ∈ some details, Portable (some Decimal.maxDigits) (.record d)) ∧
      parse (ofSource content ⟨"0.8.28".toList, some details⟩).wireText = .ok (.fields
        [ ("language", .text "Yul".toList),
          ("sources", .fields [("Target.yul", .fields [("content", .text content)])]),
          ("settings", .fields
            [ ("outputSelection", .fields [("*", .fields
                [("*", .list [.text ['*']]), ("", .list [.text ['*']])])]),
              ("optimizer", .fields
                [ ("enabled", .bool true),
                  ("runs", .int 0),
                  ("details", .fields
                    [("yul", .bool true), ("yulDetails", .record details)]) ]) ]) ]) := by
  intro content details
  have hlimit : ∀ most ∈ some Decimal.maxDigits, 0 < most := by decide
  have hinner : Portable (some Decimal.maxDigits) (.record [(['"'], .null)]) :=
    .record _ (by simp) (by simpa using .null)
  have hlist : Portable (some Decimal.maxDigits) (.list [.int (-7), .record [(['"'], .null)]]) :=
    .list _ (by simpa using ⟨.int (-7) (by decide), hinner⟩)
  have hdetails : ∀ d ∈ some details, Portable (some Decimal.maxDigits) (.record d) := by
    rintro _ ⟨⟩
    exact .record _ (by decide) (by simpa [details] using ⟨.null, hlist⟩)
  exact ⟨hlimit, hdetails, parseWithin_wireText content ⟨_, some details⟩ hlimit hdetails⟩

end CompilerInput

end YulPlus
