import ImageRecipe.Formats
import ImageRecipe.Proofs.Decode.Reading

/-!
# Definitions in YAML

`Definition.ofYaml_toYaml`: the text that a definition is written as describes
it.  A step is read without knowing its kind at first, and then its fields are
looked up among the contents found, so steps take two passes here as well.
-/

namespace ImageRecipe

open Decode Decode.Reading Yaml

/-! ### Records as lists of fields -/

theorem Step.toValue_eq (s : Step) : s.toValue = .record ((kindField, .text s.kind.name)
    :: (s.kind.fieldNames.zip s.fields).map fun f => (f.1, .text f.2)) := by
  rw [toValue, List.zip_map_right]
  rfl

/-- The fields of labels: their names, what they are written as, and what is read. -/
def Labels.writtenFields (l : Labels) : List (String × Value × Labels.Field) :=
  [(authorsKey, .texts l.authors, .authors l.authors),
    (versionKey, .optional .text l.version, .version l.version),
    (descriptionKey, .optional .text l.description, .description l.description)]

theorem Labels.ofFields_writtenFields (l : Labels) :
    ofFields (l.writtenFields.map (·.2.2)) = l :=
  rfl

def Definition.writtenFields (d : Definition) : List (String × Value × Definition.Field) :=
  [(baseKey, .optional .text d.base, .base d.base),
    (stepsKey, .list (d.steps.map Step.toValue), .steps d.steps),
    (portKey, .optional (fun p => .number p.toNat) d.port, .port d.port),
    (entrypointKey, .optional .texts d.entrypoint, .entrypoint d.entrypoint),
    (commandKey, .optional .texts d.command, .command d.command),
    (authorKey, .optional .text d.author, .author d.author),
    (labelsKey, .optional Labels.toValue d.labels, .labels d.labels),
    (volumesKey, .texts d.volumes, .volumes d.volumes)]

theorem Definition.ofFields_writtenFields (d : Definition) :
    ofFields (d.writtenFields.map (·.2.2)) = d := by
  simp [ofFields, writtenFields, set]

/-! ### Steps -/

namespace Decode

namespace Content

variable {kind : StepKind}

theorem find?_fieldNames {name : String} (h : name ∈ kind.fieldNames) :
    kind.fieldNames.find? (· == name) = some name := by
  cases hfind : kind.fieldNames.find? (· == name) with
  | none => exact absurd (beq_self_eq_true name) (List.find?_eq_none.mp hfind name h)
  | some found =>
    have hfound := List.find?_some hfind
    rw [eq_of_beq hfound]

theorem fieldTexts_text {fs seen : List (String × String)}
    (hknown : ∀ f ∈ fs, f.1 ∈ kind.fieldNames) (hnames : (fs.map (·.1)).Nodup)
    (hseen : ∀ f ∈ fs, seen.lookup f.1 = none) :
    fieldTexts kind seen (fs.map fun f => (.text f.1, .text f.2)) = .ok (seen ++ fs) := by
  induction fs generalizing seen with
  | nil => simp [fieldTexts]
  | cons f fs ih =>
    obtain ⟨hf, hknown⟩ := List.forall_mem_cons.mp hknown
    obtain ⟨hname, hnames⟩ := List.nodup_cons.mp hnames
    obtain ⟨hfresh, hseen⟩ := List.forall_mem_cons.mp hseen
    have hlater : ∀ g ∈ fs, (seen ++ [f]).lookup g.1 = none := by
      intro g hg
      have hne : g.1 ≠ f.1 := by
        intro h
        exact hname (List.mem_map.mpr ⟨g, hg, h⟩)
      simp [List.lookup_append, hseen g hg, hne]
    have hrest := ih hknown hnames hlater
    simp only [List.append_assoc, List.singleton_append] at hrest
    simp [fieldTexts, fieldName, find?_fieldNames hf, bind, Except.bind, hfresh, string, hrest]

theorem required_eq {texts : List (String × String)} {names ts : List String}
    (hlen : names.length = ts.length) (h : ∀ p ∈ names.zip ts, texts.lookup p.1 = some p.2) :
    required texts names = .ok ts := by
  induction names generalizing ts with
  | nil =>
    obtain rfl : ts = [] := List.length_eq_zero_iff.mp hlen.symm
    rfl
  | cons name names ih =>
    obtain ⟨t, ts, rfl⟩ := List.exists_cons_of_length_eq_add_one hlen.symm
    rw [List.zip_cons_cons, List.forall_mem_cons] at h
    simp [required, h.1, ih (Nat.succ.inj hlen) h.2, bind, Except.bind, pure, Except.pure]

theorem nodup_fieldNames (kind : StepKind) : kind.fieldNames.Nodup := by
  cases kind <;> decide

/-- The step of a kind from its texts under their names. -/
theorem step_mapping (s : Step) : step s.kind
    (.mapping ((s.kind.fieldNames.zip s.fields).map fun f => (.text f.1, .text f.2))) = .ok s := by
  have hmap : (s.kind.fieldNames.zip s.fields).map (·.1) = s.kind.fieldNames :=
    List.map_fst_zip (Nat.le_of_eq s.length_fields.symm)
  have hnames : ((s.kind.fieldNames.zip s.fields).map (·.1)).Nodup := by
    rw [hmap]
    exact nodup_fieldNames s.kind
  have hfields : fieldTexts s.kind []
      ((s.kind.fieldNames.zip s.fields).map fun f => (.text f.1, .text f.2))
        = .ok (s.kind.fieldNames.zip s.fields) :=
    fieldTexts_text (fun f hf => (List.of_mem_zip hf).1) hnames (by simp)
  have hrequired : required (s.kind.fieldNames.zip s.fields) s.kind.fieldNames = .ok s.fields :=
    required_eq s.length_fields.symm fun _ hf => lookup_of_mem hnames hf
  simp [step, stepTexts, hfields, bind, Except.bind, hrequired, Step.ofFields?_fields, pure,
    Except.pure]

end Content

namespace Reading

variable {anchors : List (Nat × Node)} {hand : Hand}

theorem yields_content {style : Style} {t : String} (h : style = .plain → resolve t.toList = .text)
    (expected : Expected) (room : Nat) (place : Place) :
    Yields (content anchors expected room place (.scalar {} style t)) (.text t) := by
  have hcontent : content anchors expected room place (.scalar {} style t)
      = within place (scalarContent expected {} style t) := by
    cases room <;> rw [content] <;> rfl
  rw [hcontent]
  refine .within place ?_
  have hlocal : (localTag? {}).isSome = false := rfl
  have hmeaning : meaning {} style t = .ok .text := by
    by_cases hstyle : style = .plain
    · simp [meaning, hstyle, h hstyle]
    · simp [meaning, hstyle]
  simp only [scalarContent, hlocal, hmeaning]
  exact Yields.pure _

theorem yields_kind (place : Place) (s : Step) :
    Yields (kind anchors place (hand.node (.text s.kind.name))) s.kind := by
  refine .within place (.bind (yields_text .variant place {} _ _) (Yields.lift ?_))
  cases s <;> rfl

/-- Behind the kind of a step come its other fields. -/
theorem yields_kindEntries {fs : List (String × String)} (room : Nat) (place : Place)
    (found : StepKind) (hkeys : ∀ f ∈ fs, resolve f.1.toList = .text ∧ f.1 ≠ Step.kindField) :
    Yields (kindEntries anchors room place (some found)
        (hand.fieldNodes (fs.map fun f => (f.1, .text f.2))))
      (found, fs.map fun f => (.text f.1, .text f.2)) := by
  induction fs with
  | nil => exact Yields.pure _
  | cons f fs ih =>
    obtain ⟨⟨hplain, hne⟩, hkeys⟩ := List.forall_mem_cons.mp hkeys
    refine .bind (yields_content (fun _ => hplain) .kindField room place) ?_
    split
    · next h => exact absurd (Content.text.inj h) hne
    · exact .bind (yields_content (hand.denotes _) .anyValue room _)
        (.bind (ih hkeys) (Yields.pure _))

theorem yields_kindAndContent (room : Nat) (place : Place) (s : Step) :
    Yields (kindAndContent anchors (room + 1) place (hand.node s.toValue))
      (s.kind,
        .mapping ((s.kind.fieldNames.zip s.fields).map fun f => (.text f.1, .text f.2))) := by
  have hnames : ∀ kind : StepKind, ∀ name ∈ kind.fieldNames,
      resolve name.toList = .text ∧ name ≠ Step.kindField := by
    intro kind
    cases kind <;> decide
  have hkindField : resolve Step.kindField.toList = .text := by decide
  have hentries : Yields (kindEntries anchors room place none (hand.fieldNodes ((Step.kindField,
      .text s.kind.name) :: (s.kind.fieldNames.zip s.fields).map fun f => (f.1, .text f.2))))
      (s.kind, (s.kind.fieldNames.zip s.fields).map fun f => (.text f.1, .text f.2)) :=
    .bind (yields_content (fun _ => hkindField) .kindField room place) (.bind (yields_kind _ s)
      (yields_kindEntries room place s.kind fun f hf => hnames s.kind f.1 (List.of_mem_zip hf).1))
  rw [Step.toValue_eq]
  exact .within place (.bind (yields_follow _)
    (.bind (Yields.pure ()) (.bind hentries (Yields.pure _))))

/-- **A step is read as it was written.** -/
theorem yields_step (room : Nat) (place : Place) (s : Step) :
    Yields (step anchors (room + 1) place (hand.node s.toValue)) s :=
  .bind (yields_kindAndContent room place s) (Yields.lift (Content.step_mapping s))

/-! ### Labels and definitions -/

theorem yields_optionalText (place : Place) (o : Option String) :
    Yields (optionalText anchors place (hand.node (.optional .text o))) o :=
  yields_optional (fun _ place => yields_text .string place _ _ _) isPresent_text place o

theorem yields_optionalTexts (place : Place) (o : Option (List String)) :
    Yields (optionalTexts anchors place (hand.node (.optional .texts o))) o :=
  yields_optional (fun xs place => yields_texts place xs) (fun _ => trivial) place o

theorem yields_labels (place : Place) (l : Labels) :
    Yields (labels anchors place (hand.node l.toValue)) l := by
  have hknown : ∀ f ∈ l.writtenFields, ∃ read, (f.1, read) ∈ labelsFields anchors ∧
      ∀ place, Yields (read place (hand.node f.2.1)) f.2.2 := by
    simp only [Labels.writtenFields, List.forall_mem_cons]
    exact ⟨⟨_, List.mem_of_getElem? (i := 0) rfl,
        fun place => (yields_texts place _).map Labels.Field.authors⟩,
      ⟨_, List.mem_of_getElem? (i := 1) rfl,
        fun place => (yields_optionalText place _).map Labels.Field.version⟩,
      ⟨_, List.mem_of_getElem? (i := 2) rfl,
        fun place => (yields_optionalText place _).map Labels.Field.description⟩, by simp⟩
  have hnames : (l.writtenFields.map (·.1)).Nodup := by
    simp only [Labels.writtenFields, List.map_cons, List.map_nil]
    decide
  have hkeys : ((labelsFields anchors).map (·.1)).Nodup := by
    simp only [labelsFields, List.map_cons, List.map_nil]
    decide
  have hrecord : Yields
      (record anchors .labels (labelsFields anchors) place (hand.node l.toValue))
        (l.writtenFields.map (·.2.2)) := yields_record hknown hkeys hnames place
  have hread := hrecord.map Labels.ofFields
  rwa [Labels.ofFields_writtenFields] at hread

theorem yields_steps (place : Place) (steps : List Step) :
    Yields (list anchors (step anchors stepRoom) place (hand.node (.list (steps.map Step.toValue))))
      steps :=
  yields_list (fun s place => yields_step 125 place s) place steps

theorem yields_optionalPort (place : Place) (o : Option UInt16) :
    Yields (optional anchors (port anchors) place
      (hand.node (.optional (fun p => .number p.toNat) o))) o :=
  yields_optional (fun p place => yields_port place p) (fun p => isPresent_number p.toNat) place o

theorem yields_optionalLabels (place : Place) (o : Option Labels) :
    Yields (optional anchors (labels anchors) place (hand.node (.optional Labels.toValue o))) o :=
  yields_optional (fun l place => yields_labels place l) (fun _ => trivial) place o

theorem yields_definition (place : Place) (d : Definition) :
    Yields (definition anchors place (hand.node d.toValue)) d := by
  have hknown : ∀ f ∈ d.writtenFields, ∃ read, (f.1, read) ∈ definitionFields anchors ∧
      ∀ place, Yields (read place (hand.node f.2.1)) f.2.2 := by
    simp only [Definition.writtenFields, List.forall_mem_cons]
    exact ⟨⟨_, List.mem_of_getElem? (i := 0) rfl,
        fun place => (yields_optionalText place _).map Definition.Field.base⟩,
      ⟨_, List.mem_of_getElem? (i := 1) rfl,
        fun place => (yields_steps place _).map Definition.Field.steps⟩,
      ⟨_, List.mem_of_getElem? (i := 2) rfl,
        fun place => (yields_optionalPort place _).map Definition.Field.port⟩,
      ⟨_, List.mem_of_getElem? (i := 3) rfl,
        fun place => (yields_optionalTexts place _).map Definition.Field.entrypoint⟩,
      ⟨_, List.mem_of_getElem? (i := 4) rfl,
        fun place => (yields_optionalTexts place _).map Definition.Field.command⟩,
      ⟨_, List.mem_of_getElem? (i := 5) rfl,
        fun place => (yields_optionalText place _).map Definition.Field.author⟩,
      ⟨_, List.mem_of_getElem? (i := 6) rfl,
        fun place => (yields_optionalLabels place _).map Definition.Field.labels⟩,
      ⟨_, List.mem_of_getElem? (i := 7) rfl,
        fun place => (yields_texts place _).map Definition.Field.volumes⟩, by simp⟩
  have hnames : (d.writtenFields.map (·.1)).Nodup := by
    simp only [Definition.writtenFields, List.map_cons, List.map_nil]
    decide
  have hkeys : ((definitionFields anchors).map (·.1)).Nodup := by
    simp only [definitionFields, List.map_cons, List.map_nil]
    decide
  have hrecord : Yields
      (record anchors .definition (definitionFields anchors) place (hand.node d.toValue))
        (d.writtenFields.map (·.2.2)) := yields_record hknown hkeys hnames place
  have hread := hrecord.map Definition.ofFields
  rwa [Definition.ofFields_writtenFields] at hread

end Reading

end Decode

/-! ### Everything that is written can be read -/

namespace Yaml

instance : DecidablePred KeyText := fun k =>
  decidable_of_iff
    (k ≠ [] ∧ k.length ≤ 1022 ∧ k.all isKeyChar = true ∧ k.head? ≠ some '.')
    ⟨fun h => ⟨h.1, h.2.1, List.all_eq_true.mp h.2.2.1, fun _ hc he => h.2.2.2 (he ▸ hc)⟩,
      fun h => ⟨h.nonempty, h.short, List.all_eq_true.mpr h.chars, fun hc => h.start '.' hc rfl⟩⟩

theorem writableItems_map {α : Type} {write : α → Value}
    (h : ∀ x, ¬IsFullList (write x) ∧ Writable (write x)) (xs : List α) :
    WritableItems (xs.map write) := by
  induction xs with
  | nil => trivial
  | cons x xs ih => exact ⟨(h x).1, (h x).2, ih⟩

theorem writableFields_texts {fs : List (String × String)}
    (h : ∀ f ∈ fs, KeyText f.1.toList) :
    WritableFields (fs.map fun f => (f.1, .text f.2)) := by
  induction fs with
  | nil => trivial
  | cons f fs ih =>
    rw [List.forall_mem_cons] at h
    exact ⟨h.1, trivial, ih h.2⟩

theorem writable_texts (xs : List String) : Writable (.texts xs) := by
  have htext : ∀ s, ¬IsFullList (.text s) ∧ Writable (.text s) := fun _ => ⟨id, trivial⟩
  exact writableItems_map htext xs

theorem writable_optional {α : Type} {write : α → Value} (h : ∀ x, Writable (write x))
    (o : Option α) : Writable (.optional write o) := by
  cases o with
  | none => trivial
  | some x => exact h x

theorem writable_optionalText (o : Option String) : Writable (.optional .text o) := by
  cases o <;> trivial

end Yaml

theorem Step.writable_toValue (s : Step) : Writable s.toValue := by
  have hkeys : ∀ kind : StepKind, ∀ name ∈ kind.fieldNames, KeyText name.toList := by
    intro kind
    cases kind <;> decide
  rw [toValue_eq]
  exact ⟨List.cons_ne_nil _ _, by decide, trivial,
    writableFields_texts fun f hf => hkeys s.kind f.1 (List.of_mem_zip hf).1⟩

theorem Labels.writable_toValue (l : Labels) : Writable l.toValue :=
  ⟨List.cons_ne_nil _ _, by decide, writable_texts _, by decide, writable_optionalText _,
    by decide, writable_optionalText _, trivial⟩

namespace Definition

theorem writable_toValue (d : Definition) : Writable d.toValue := by
  have hport : ∀ p : UInt16, Writable (.number p.toNat) := fun _ => trivial
  exact ⟨List.cons_ne_nil _ _, by decide, writable_optionalText _,
    by decide, writableItems_map (fun s => ⟨id, s.writable_toValue⟩) _,
    by decide, writable_optional hport _,
    by decide, writable_optional writable_texts _, by decide, writable_optional writable_texts _,
    by decide, writable_optionalText _, by decide, writable_optional Labels.writable_toValue _,
    by decide, writable_texts _, trivial⟩

/-- **The text of a definition describes it.** -/
theorem ofYaml_toYaml (d : Definition) : ofYaml d.toYaml = .ok d := by
  have hload : Document.load d.toYaml = ⟨valueNode d.toValue, true⟩ :=
    load_block d.writable_toValue
  have hread : readYaml Reading.definition d.toYaml = .ok d := by
    simp only [readYaml, hload, yields_definition _ d _, if_true]
  rw [ofYaml, hread]
  rfl

end Definition

end ImageRecipe
