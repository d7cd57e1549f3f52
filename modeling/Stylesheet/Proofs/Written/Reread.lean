import Stylesheet.Proofs.Reading.DocumentShape
import Stylesheet.Proofs.Written.Decoded
import Stylesheet.Proofs.Written.RoundTrip

/-!
# The values of a document are read back

Whatever text a document came out of, each of its values whose numbers are finite is read back from
what it is written as (`parseText_readValue`). Values that keep a piece of the source as it stood, a
malformed address or a hash that spells no color, may hold null characters: of these U+FFFD comes
back, and the value that is read is not the one that was written (`not_equal_strayNul`).
-/

namespace Stylesheet

/-- The values of a document have the shape of values that come out of a text. -/
theorem Document.IsShaped.values {d : Document} (h : d.IsShaped) :
    ∀ v ∈ d.values, v.IsShaped false := by
  intro v hv
  rcases List.mem_append.1 hv with hv | hv
  · obtain ⟨f, hf, hv⟩ := List.mem_flatMap.1 hv
    exact (h.fontFaces f hf).values v hv
  · obtain ⟨r, hr, hv⟩ := List.mem_flatMap.1 hv
    rcases List.mem_append.1 hv with hv | hv
    · obtain ⟨q, hq, hv⟩ := List.mem_flatMap.1 hv
      exact ((h.rules r hr).media q hq).values v hv
    · obtain ⟨d, hd, rfl⟩ := List.mem_map.1 hv
      exact (h.rules r hr).declarations d hd

/-- A value of a document is written and read back without a problem, with U+FFFD for every null
    character; so what comes back is equal to it exactly where it holds none. -/
theorem parseText_readValue {source text : String} {options : Options} {document : Document}
    (h : (parseText source text options).document = some document) {v : Value}
    (hv : v ∈ document.values) (hn : ∀ x ∈ v.numbers, x.IsFinite ∧ x.ReadsBack)
    (source' : String) (options' : Options)
    (hd : (tokenize source' (declarationText v).toList options').tooDeep = none) :
    (parseText source' (declarationText v) options').problems = [] ∧
      ∃ document' rule d,
        (parseText source' (declarationText v) options').document = some document' ∧
        document'.rules = [rule] ∧ rule.declarations = [d] ∧ d.name = "p" ∧
        d.value = v.decoded ∧ (d.value.equal v = true ↔ ∀ s ∈ v.texts, nul ∉ s.toList) := by
  have htext : declarationText v.decoded = declarationText v := by
    rw [declarationText, declarationText, v.toText_decoded]
  have hshaped := ((parseText_isShaped h).values v hv).decoded
  rw [← htext] at hd ⊢
  obtain ⟨hproblems, document', rule, d, hdocument, hrules, hdeclarations, hname, hvalue⟩ :=
    parseText_shapedText hshaped (Value.isClean_decoded hn) source' options' hd
  refine ⟨hproblems, document', rule, d, hdocument, hrules, hdeclarations, hname, hvalue, ?_⟩
  rw [hvalue]
  exact Value.equal_decoded_iff fun x hx => (hn x hx).1

/-- A hash that spells no color, a malformed address and a number. -/
def keptText : String := "a\x7bp:#xg url(b\"),1e1px\x7d"

/-- It has one value, which keeps the hash and the address as they stood and is read back. -/
theorem parseText_readValue_keptText :
    ∃ d : Document, (parseText "kept.css" keptText .standard).document = some d ∧
      d.values.map Value.toText = ["\\#xg url(\"b\\\"\"), 10px"] ∧ ∀ v ∈ d.values,
      (parseText "written.css" (declarationText v) .strict).problems = [] ∧
        ∃ document' rule d',
          (parseText "written.css" (declarationText v) .strict).document = some document' ∧
          document'.rules = [rule] ∧ rule.declarations = [d'] ∧ d'.name = "p" ∧
          d'.value = v.decoded ∧
          (d'.value.equal v = true ↔ ∀ s ∈ v.texts, nul ∉ s.toList) := by
  have hany : (parseText "kept.css" keptText .standard).document.any (fun d =>
      d.values.map Value.toText == ["\\#xg url(\"b\\\"\"), 10px"] && d.values.all fun v =>
        decide (∀ x ∈ v.numbers, x.IsFinite ∧ x.ReadsBack) &&
          (tokenize "written.css" (declarationText v).toList .strict).tooDeep.isNone) = true := by
    decide +kernel
  obtain ⟨d, h, hd⟩ := (Option.any_eq_true _ _).1 hany
  simp only [Bool.and_eq_true, beq_iff_eq, List.all_eq_true, decide_eq_true_eq,
    Option.isNone_iff_eq_none] at hd
  exact ⟨d, h, hd.1, fun v hv =>
    parseText_readValue h hv (hd.2 v hv).1 "written.css" .strict (hd.2 v hv).2⟩

/-- A hash that spells no color, with a null character. -/
def strayNul : String := "a\x7bp:#x\x00\x7d"

/-- Its value keeps the null character and is read back as another one. -/
theorem not_equal_strayNul :
    ∃ d : Document, (parseText "stray.css" strayNul .standard).document = some d ∧
      ∃ v ∈ d.values, (∀ x ∈ v.numbers, x.IsFinite ∧ x.ReadsBack) ∧
        (tokenize "written.css" (declarationText v).toList .standard).tooDeep = none ∧
        ∃ document' rule d',
          (parseText "written.css" (declarationText v) .standard).document = some document' ∧
          document'.rules = [rule] ∧ rule.declarations = [d'] ∧ d'.name = "p" ∧
          d'.value.equal v = false := by
  have hany : (parseText "stray.css" strayNul .standard).document.any (fun d =>
      d.values.any fun v => v.numbers.isEmpty &&
        ((tokenize "written.css" (declarationText v).toList .standard).tooDeep.isNone &&
        (parseText "written.css" (declarationText v) .standard).document.any fun document' =>
          document'.rules.length == 1 && document'.rules.all fun rule =>
            rule.declarations.length == 1 && rule.declarations.all fun d' =>
              d'.name == "p" && !d'.value.equal v)) = true := by
    decide +kernel
  obtain ⟨d, h, hd⟩ := (Option.any_eq_true _ _).1 hany
  obtain ⟨v, hv, hd⟩ := List.any_eq_true.1 hd
  simp only [Bool.and_eq_true, List.isEmpty_iff, Option.isNone_iff_eq_none] at hd
  obtain ⟨hnumbers, hdeep, hany'⟩ := hd
  obtain ⟨document', hdocument, hd⟩ := (Option.any_eq_true _ _).1 hany'
  simp only [Bool.and_eq_true, beq_iff_eq, List.length_eq_one_iff] at hd
  obtain ⟨⟨rule, hrules⟩, hd⟩ := hd
  simp only [hrules, List.all_cons, List.all_nil, Bool.and_true, Bool.and_eq_true, beq_iff_eq,
    List.length_eq_one_iff] at hd
  obtain ⟨⟨d', hdeclarations⟩, hd⟩ := hd
  simp only [hdeclarations, List.all_cons, List.all_nil, Bool.and_true, Bool.and_eq_true,
    beq_iff_eq, Bool.not_eq_true'] at hd
  exact ⟨d, h, v, hv, by simp [hnumbers], hdeep, document', rule, d', hdocument, hrules,
    hdeclarations, hd.1, hd.2⟩

end Stylesheet
