import ImageRecipe.Proofs.Decode.TreeReading

/-!
# Steps, labels and settings in both formats

`both_formats_read_back`: what a step, labels or settings are written as is read as just
that, in JSON as well as in YAML.  What is left to do here is what YAML makes of
settings, and to put the reading of texts and of what they hold together.
-/

namespace ImageRecipe

open Decode Json

/-! ### Settings in YAML -/

namespace Decode.Reading

open Yaml

variable {anchors : List (Nat × Node)}

theorem yields_policy (place : Place) (p : Policy) :
    Yields (policy anchors place (valueNode (.text p.name))) p := by
  refine Yields.within place (Yields.lift ?_)
  cases p <;> rfl

theorem yields_bool (place : Place) (b : Bool) :
    Yields (bool anchors place (valueNode (.flag b))) b := by
  cases b <;> exact .within place (.bind (yields_follow_scalar _ _ _) (Yields.pure _))

theorem yields_settings (place : Place) (s : Settings) :
    Yields (settings anchors place (valueNode s.toValue)) s := by
  have hknown : ∀ f ∈ s.writtenFields, ∃ read, (f.1, read) ∈ settingsFields anchors ∧
      ∀ place, Yields (read place (valueNode f.2.1)) f.2.2 := by
    simp only [Settings.writtenFields, List.forall_mem_cons]
    exact ⟨⟨_, List.mem_of_getElem? (i := 0) rfl,
        fun place => (yields_text .string place _ _ _).map Settings.Field.shell⟩,
      ⟨_, List.mem_of_getElem? (i := 1) rfl,
        fun place => (yields_policy place _).map Settings.Field.policy⟩,
      ⟨_, List.mem_of_getElem? (i := 2) rfl,
        fun place => (yields_bool place _).map Settings.Field.quiet⟩, by simp⟩
  have hnames : (s.writtenFields.map (·.1)).Nodup := by
    simp only [Settings.writtenFields, List.map_cons, List.map_nil]
    decide
  have hkeys : ((settingsFields anchors).map (·.1)).Nodup := by
    simp only [settingsFields, List.map_cons, List.map_nil]
    decide
  have hrecord : Yields
      (record anchors .settings (settingsFields anchors) place (valueNode s.toValue))
        (s.writtenFields.map (·.2.2)) := yields_record hknown hkeys hnames place
  have hread := hrecord.map Settings.ofFields
  rwa [Settings.ofFields_writtenFields] at hread

end Decode.Reading

theorem Settings.writable_toValue (s : Settings) : Yaml.Writable s.toValue :=
  ⟨List.cons_ne_nil _ _, by decide, trivial, by decide, trivial, by decide, trivial, trivial⟩

/-- What is found in the written node is read from the text. -/
theorem Decode.readYaml_block {α : Type}
    {read : List (Nat × Yaml.Node) → Place → Yaml.Node → Reading α}
    {fields : List (String × Value)} {x : α} (hv : Yaml.Writable (.record fields))
    (hread : ∀ anchors, Yields (read anchors [] (Yaml.valueNode (.record fields))) x) :
    readYaml read (Yaml.block (.record fields)) = .ok x := by
  have hload := Yaml.load_block hv
  simp only [readYaml, hload, hread _ _, if_true]

/-! ### Numbers -/

theorem Step.numbers64_toValue (s : Step) : Numbers64 s.toValue := by
  cases s <;>
    simp [toValue, kind, fields, StepKind.fieldNames, Numbers64, FieldNumbers64]

theorem Json.numbers64_optionalText (o : Option String) : Numbers64 (.optional .text o) := by
  cases o <;> trivial

theorem Labels.numbers64_toValue (l : Labels) : Numbers64 l.toValue :=
  ⟨itemNumbers64_texts _, numbers64_optionalText _, numbers64_optionalText _, trivial⟩

theorem Settings.numbers64_toValue (s : Settings) : Numbers64 s.toValue :=
  ⟨trivial, trivial, trivial, trivial⟩

/-! ### Both formats -/

theorem Step.json_reads_back (s : Step) : ofJson s.toJson = .ok s := by
  rw [ofJson, toJson, TreeReading.readJson_compact s.numbers64_toValue
    (TreeReading.step_valueTree s)]
  rfl

theorem Labels.json_reads_back (l : Labels) : ofJson l.toJson = .ok l := by
  rw [ofJson, toJson, TreeReading.readJson_compact l.numbers64_toValue
    (TreeReading.labels_valueTree l)]
  rfl

theorem Settings.json_reads_back (s : Settings) : ofJson s.toJson = .ok s := by
  rw [ofJson, toJson, TreeReading.readJson_compact s.numbers64_toValue
    (TreeReading.settings_valueTree s)]
  rfl

/-- The text of a step is read to its end before its fields are looked at. -/
theorem Step.yaml_reads_back (s : Step) : ofYaml s.toYaml = .ok s := by
  have hread : readYaml (fun anchors => Reading.kindAndContent anchors depthLimit) s.toYaml
      = .ok (s.kind,
        .mapping ((s.kind.fieldNames.zip s.fields).map fun f => (.text f.1, .text f.2))) :=
    readYaml_block s.writable_toValue fun _ => Reading.yields_kindAndContent 127 [] s
  have hstep : readStep s.toYaml = .ok s := by
    rw [readStep, hread]
    exact Content.step_mapping s
  rw [ofYaml, hstep]
  rfl

theorem Labels.yaml_reads_back (l : Labels) : ofYaml l.toYaml = .ok l := by
  have hread : readYaml Reading.labels l.toYaml = .ok l :=
    readYaml_block l.writable_toValue fun _ => Reading.yields_labels [] l
  rw [ofYaml, hread]
  rfl

theorem Settings.yaml_reads_back (s : Settings) : ofYaml s.toYaml = .ok s := by
  have hread : readYaml Reading.settings s.toYaml = .ok s :=
    readYaml_block s.writable_toValue fun _ => Reading.yields_settings [] s
  rw [ofYaml, hread]
  rfl

/-- **Steps, labels and settings are read as they were written**, in either format. -/
theorem both_formats_read_back :
    (∀ s : Step, Step.ofJson s.toJson = .ok s ∧ Step.ofYaml s.toYaml = .ok s) ∧
    (∀ l : Labels, Labels.ofJson l.toJson = .ok l ∧ Labels.ofYaml l.toYaml = .ok l) ∧
    ∀ s : Settings, Settings.ofJson s.toJson = .ok s ∧ Settings.ofYaml s.toYaml = .ok s :=
  ⟨fun s => ⟨s.json_reads_back, s.yaml_reads_back⟩, fun l => ⟨l.json_reads_back, l.yaml_reads_back⟩,
    fun s => ⟨s.json_reads_back, s.yaml_reads_back⟩⟩

end ImageRecipe
