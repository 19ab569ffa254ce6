import ImageRecipe.Proofs.Decode.RoundTrip
import ImageRecipe.Proofs.Json.Compact

/-!
# JSON readers on written values

What each of the readers of trees finds in the tree of a written value: what was
written.  The fields of a record are found by their names, one after the other.
-/

namespace ImageRecipe

open Decode Json

def Settings.writtenFields (s : Settings) : List (String × Value × Settings.Field) :=
  [(shellKey, .text s.shell, .shell s.shell), (policyKey, .text s.policy.name, .policy s.policy),
    (quietKey, .flag s.quiet, .quiet s.quiet)]

theorem Settings.ofFields_writtenFields (s : Settings) :
    ofFields (s.writtenFields.map (·.2.2)) = s :=
  rfl

namespace Decode.TreeReading

/-! ### Parts of records -/

theorem mapM_text (xs : List String) :
    (itemTrees (xs.map .text)).mapM (text .string) = .ok xs := by
  induction xs with
  | nil => rfl
  | cons x xs ih => simp [itemTrees, valueTree, text, ih, bind, Except.bind, pure, Except.pure]

theorem texts_valueTree (xs : List String) : texts (valueTree (.texts xs)) = .ok xs :=
  mapM_text xs

theorem optionalText_valueTree (o : Option String) :
    optional (text .string) (valueTree (.optional .text o)) = .ok o := by
  cases o <;> rfl

/-! ### Records -/

theorem named_memberTrees {φ : Type} {known : Fields φ} {fs : List (String × Value × φ)}
    {seen : List String}
    (hknown : ∀ f ∈ fs, ∃ read, (f.1, read) ∈ known ∧ read (valueTree f.2.1) = .ok f.2.2)
    (hkeys : (known.map (·.1)).Nodup) (hnames : (fs.map (·.1) ++ seen).Nodup) :
    named known seen (memberTrees (fs.map fun f => (f.1, f.2.1))) = .ok (fs.map (·.2.2)) := by
  induction fs generalizing seen with
  | nil => rfl
  | cons f fs ih =>
    obtain ⟨k, v, y⟩ := f
    obtain ⟨⟨read, hmem, hread⟩, hknown⟩ := List.forall_mem_cons.mp hknown
    have hlookup : known.lookup k = some read := Reading.lookup_of_mem hkeys hmem
    obtain ⟨hfresh, -⟩ := List.nodup_cons.mp hnames
    have hcontains : seen.contains k = false := by
      simpa using fun h => hfresh (List.mem_append_right _ h)
    have hrest := ih hknown (List.perm_middle.nodup_iff.mpr hnames)
    simp only [List.map_cons, memberTrees, named, hlookup, hcontains, Bool.false_eq_true, if_false,
      bind, Except.bind, pure, Except.pure, hread, hrest]

theorem record_valueTree {φ : Type} {known : Fields φ} {expected : Expected}
    {fs : List (String × Value × φ)}
    (hknown : ∀ f ∈ fs, ∃ read, (f.1, read) ∈ known ∧ read (valueTree f.2.1) = .ok f.2.2)
    (hkeys : (known.map (·.1)).Nodup) (hnames : (fs.map (·.1)).Nodup) :
    record expected known (valueTree (.record (fs.map fun f => (f.1, f.2.1))))
      = .ok (fs.map (·.2.2)) :=
  named_memberTrees hknown hkeys (by simpa using hnames)

/-! ### Labels and settings -/

theorem labels_valueTree (l : Labels) : labels (valueTree l.toValue) = .ok l := by
  have hknown : ∀ f ∈ l.writtenFields, ∃ read, (f.1, read) ∈ labelsFields ∧
      read (valueTree f.2.1) = .ok f.2.2 := by
    simp only [Labels.writtenFields, List.forall_mem_cons]
    exact ⟨⟨_, List.mem_of_getElem? (i := 0) rfl, by rw [texts_valueTree]; rfl⟩,
      ⟨_, List.mem_of_getElem? (i := 1) rfl, by rw [optionalText_valueTree]; rfl⟩,
      ⟨_, List.mem_of_getElem? (i := 2) rfl, by rw [optionalText_valueTree]; rfl⟩, by simp⟩
  have hnames : (l.writtenFields.map (·.1)).Nodup := by
    simp only [Labels.writtenFields, List.map_cons, List.map_nil]
    decide
  have hkeys : (labelsFields.map (·.1)).Nodup := by
    simp only [labelsFields, List.map_cons, List.map_nil]
    decide
  have hrecord : record .labels labelsFields (valueTree l.toValue)
      = .ok (l.writtenFields.map (·.2.2)) := record_valueTree hknown hkeys hnames
  rw [labels, hrecord]
  exact congrArg Except.ok l.ofFields_writtenFields

theorem settings_valueTree (s : Settings) : settings (valueTree s.toValue) = .ok s := by
  have hpolicy : policy (valueTree (.text s.policy.name)) = .ok s.policy := by
    cases s.policy <;> rfl
  have hknown : ∀ f ∈ s.writtenFields, ∃ read, (f.1, read) ∈ settingsFields ∧
      read (valueTree f.2.1) = .ok f.2.2 := by
    simp only [Settings.writtenFields, List.forall_mem_cons]
    exact ⟨⟨_, List.mem_of_getElem? (i := 0) rfl, rfl⟩,
      ⟨_, List.mem_of_getElem? (i := 1) rfl, by rw [hpolicy]; rfl⟩,
      ⟨_, List.mem_of_getElem? (i := 2) rfl, rfl⟩, by simp⟩
  have hnames : (s.writtenFields.map (·.1)).Nodup := by
    simp only [Settings.writtenFields, List.map_cons, List.map_nil]
    decide
  have hkeys : (settingsFields.map (·.1)).Nodup := by
    simp only [settingsFields, List.map_cons, List.map_nil]
    decide
  have hrecord : record .settings settingsFields (valueTree s.toValue)
      = .ok (s.writtenFields.map (·.2.2)) := record_valueTree hknown hkeys hnames
  rw [settings, hrecord]
  exact congrArg Except.ok s.ofFields_writtenFields

/-! ### Steps -/

/-- Behind the kind of a step come its other fields. -/
theorem kindMembers_texts (room : Nat) (found : StepKind) (fs : List (String × String))
    (hkeys : ∀ f ∈ fs, f.1 ≠ Step.kindField) :
    kindMembers room (some found) (memberTrees (fs.map fun f => (f.1, .text f.2)))
      = .ok (found, fs.map fun f => (.text f.1, .text f.2)) := by
  induction fs with
  | nil => rfl
  | cons f fs ih =>
    obtain ⟨hne, hkeys⟩ := List.forall_mem_cons.mp hkeys
    simp only [List.map_cons, memberTrees, valueTree, kindMembers, if_neg hne, content, ih hkeys,
      bind, Except.bind, pure, Except.pure]

theorem step_valueTree (s : Step) : step (valueTree s.toValue) = .ok s := by
  have hnames : ∀ kind : StepKind, ∀ name ∈ kind.fieldNames, name ≠ Step.kindField := by
    intro kind
    cases kind <;> decide
  have hkind : kind (valueTree (.text s.kind.name)) = .ok s.kind := by
    cases s <;> rfl
  have hrest := kindMembers_texts (depthLimit - 1) s.kind (s.kind.fieldNames.zip s.fields)
    fun f hf => hnames s.kind f.1 (List.of_mem_zip hf).1
  have hmembers : kindMembers (depthLimit - 1) none (memberTrees ((Step.kindField,
      .text s.kind.name) :: (s.kind.fieldNames.zip s.fields).map fun f => (f.1, .text f.2)))
        = .ok (s.kind, (s.kind.fieldNames.zip s.fields).map fun f => (.text f.1, .text f.2)) := by
    simp only [memberTrees, kindMembers, Option.isSome_none, Bool.false_eq_true, if_true, if_false,
      hkind, hrest, bind, Except.bind, pure, Except.pure]
  have hcontent : kindAndContent (valueTree s.toValue) = .ok (s.kind,
      .mapping ((s.kind.fieldNames.zip s.fields).map fun f => (.text f.1, .text f.2))) := by
    rw [Step.toValue_eq, valueTree, kindAndContent, hmembers]
    rfl
  rw [step, hcontent]
  exact Content.step_mapping s

/-- A text is read as what its value is read as. -/
theorem readJson_compact {α : Type} {read : Reader α} {v : Value} {x : α} (hv : Numbers64 v)
    (hread : read (valueTree v) = .ok x) : readJson read (compact v) = .ok x := by
  rw [readJson, read_compact hv]
  simp only [hread, if_true]

end Decode.TreeReading

end ImageRecipe
