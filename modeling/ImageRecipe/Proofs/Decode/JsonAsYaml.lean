import ImageRecipe.Proofs.Decode.RoundTrip
import ImageRecipe.Proofs.Yaml.FlowDocument

/-!
# Definitions in JSON, read as YAML

A definition in compact JSON is read as YAML too, but for some of its texts.
`Definition.json_as_yaml` says what becomes of all definitions: each text is
taken as YAML hears it, and if YAML refuses one of them nothing is read.  So a
definition is read back just if YAML keeps all its texts, and all texts without
`U+0085`, `U+2028` and `U+2029` and without characters that YAML forbids are kept.
-/

namespace ImageRecipe

open Decode Yaml

theorem StepKind.heard_name (k : StepKind) : heard k.name = some k.name := by
  rw [heard_eq_self_iff]
  cases k <;> decide

/-- A text whose document is not complete is not read. -/
theorem Decode.readYaml_ne_ok {α : Type}
    {read : List (Nat × Node) → Place → Node → Reading α} {text : String}
    (h : (Document.load text).complete = false) (x : α) : readYaml read text ≠ .ok x := by
  rw [readYaml]
  simp only [h]
  split <;> simp

namespace Definition

/-- What is read is the definition with its texts as YAML hears them. -/
theorem ofYaml_toJson_iff (d d' : Definition) :
    ofYaml d.toJson = .ok d' ↔ d.traverse heard = some d' := by
  have hvalue : d.toValue.traverse heard = (d.traverse heard).map toValue :=
    traverse_toValue StepKind.heard_name d
  obtain ⟨hload, hbroken⟩ := load_compact d.writable_toValue
  rw [ofYaml]
  cases hd : d.traverse heard with
  | some e =>
    rw [hd] at hvalue
    have hdocument : Document.load d.toJson = ⟨Hand.json.node e.toValue, true⟩ := hload _ hvalue
    have hread : readYaml Reading.definition d.toJson = .ok e := by
      simp only [readYaml, hdocument, Reading.yields_definition _ e _, if_true]
    rw [hread]
    simp [orFailure, Except.mapError]
  | none =>
    rw [hd] at hvalue
    cases hread : readYaml Reading.definition d.toJson with
    | ok x => exact absurd hread (readYaml_ne_ok (hbroken hvalue) x)
    | error m => simp [orFailure, Except.mapError]

theorem ofYaml_toJson_self_iff (d : Definition) :
    ofYaml d.toJson = .ok d ↔ ∀ t ∈ d.texts, Kept t := by
  rw [ofYaml_toJson_iff, traverse_eq_self_iff]
  simp only [heard_eq_self_iff]

/-- A definition is read back if there is no line break in it but those of JSON, and no character
that YAML forbids. -/
theorem ofYaml_toJson {d : Definition} (h : ∀ t ∈ d.texts, ∀ c ∈ t.toList,
    isReadable c = true ∧ c ≠ '\u0085' ∧ ¬IsSeparator c) : ofYaml d.toJson = .ok d :=
  d.ofYaml_toJson_self_iff.mpr fun t ht => kept_of_forall (h t ht)

/-- **Which definitions YAML reads back from JSON, and what it makes of the others.** -/
theorem json_as_yaml (d : Definition) :
    (∀ d', ofYaml d.toJson = .ok d' ↔ d.traverse heard = some d') ∧
      (ofYaml d.toJson = .ok d ↔ ∀ t ∈ d.texts, Kept t) :=
  ⟨d.ofYaml_toJson_iff, d.ofYaml_toJson_self_iff⟩

/-- A line break that JSON does not know is lost without an error. -/
theorem json_as_yaml_loses_next_line :
    ofYaml { author := some "a\u0085b" : Definition }.toJson = .ok { author := some "a b" } := by
  rw [ofYaml_toJson_iff]
  decide

end Definition

end ImageRecipe
