import ImageRecipe.Recipe.Definition
import Mathlib.Data.List.Forall2

/-!
# The texts of a definition

`Definition.traverse` passes every text of a definition through a function that
may change it or refuse it, and `Definition.texts` lists these texts.  In the
record that a definition is written as they are passed through as well, but for
the names of the kinds of its steps, which are texts there.
-/

namespace ImageRecipe

theorem mapM_eq_some_iff {α β : Type} {f : α → Option β} {xs : List α} {ys : List β} :
    xs.mapM f = some ys ↔ List.Forall₂ (fun x y => f x = some y) xs ys := by
  induction xs generalizing ys with
  | nil => simp [eq_comm]
  | cons x xs ih => cases ys <;> simp [Option.bind_eq_some_iff, ih]

/-- Every item stays as it is, and is not refused. -/
theorem mapM_eq_self_iff {α : Type} {f : α → Option α} {xs : List α} :
    xs.mapM f = some xs ↔ ∀ x ∈ xs, f x = some x := by
  rw [mapM_eq_some_iff, List.forall₂_same]

theorem optionMapM_eq_self_iff {α : Type} {f : α → Option α} {o : Option α} :
    o.mapM f = some o ↔ ∀ x ∈ o, f x = some x := by
  cases o <;> simp [Option.map_eq_some_iff]

/-! ### Values -/

mutual

/-- A value with its texts passed through `f`; `none` if one of them is refused.  The names of
fields are no texts. -/
def Value.traverse (f : String → Option String) : Value → Option Value
  | .none => some .none
  | .flag b => some (.flag b)
  | .number n => some (.number n)
  | .text s => (f s).map .text
  | .list items => (traverseItems f items).map .list
  | .record fields => (traverseFields f fields).map .record
termination_by structural v => v

def Value.traverseItems (f : String → Option String) : List Value → Option (List Value)
  | [] => some []
  | v :: r => (traverse f v).bind fun w => (traverseItems f r).map (w :: ·)
termination_by structural items => items

def Value.traverseFields (f : String → Option String) :
    List (String × Value) → Option (List (String × Value))
  | [] => some []
  | (k, v) :: r => (traverse f v).bind fun w => (traverseFields f r).map ((k, w) :: ·)
termination_by structural fields => fields

end

namespace Value

variable {f : String → Option String}

@[simp] theorem traverse_text (s : String) : (Value.text s).traverse f = (f s).map .text := rfl

theorem traverseItems_map {α : Type} {write : α → Value} {g : α → Option α}
    (h : ∀ x, (write x).traverse f = (g x).map write) (xs : List α) :
    traverseItems f (xs.map write) = (xs.mapM g).map (List.map write) := by
  induction xs with
  | nil => rfl
  | cons x xs ih =>
    rw [List.map_cons, traverseItems, h, ih]
    cases hx : g x <;> cases hxs : xs.mapM g <;> simp [hx, hxs]

theorem traverseFields_zip {names xs : List String} (h : names.length = xs.length) :
    traverseFields f (names.zip (xs.map .text))
      = (xs.mapM f).map fun ys => names.zip (ys.map .text) := by
  induction names generalizing xs with
  | nil =>
    obtain rfl := List.length_eq_zero_iff.mp h.symm
    rfl
  | cons name names ih =>
    obtain ⟨x, xs, rfl⟩ := List.exists_cons_of_length_eq_add_one h.symm
    rw [List.map_cons, List.zip_cons_cons, traverseFields, traverse, ih (Nat.succ.inj h)]
    cases hx : f x <;> cases hxs : xs.mapM f <;> simp [hx, hxs]

theorem traverse_texts (xs : List String) :
    (Value.texts xs).traverse f = (xs.mapM f).map Value.texts := by
  rw [Value.texts, traverse, traverseItems_map traverse_text, Option.map_map]
  rfl

theorem traverse_optional {α : Type} {write : α → Value} {g : α → Option α}
    (h : ∀ x, (write x).traverse f = (g x).map write) (o : Option α) :
    (Value.optional write o).traverse f = (o.mapM g).map (Value.optional write) := by
  cases o with
  | none => rfl
  | some x =>
    rw [Value.optional, h]
    cases hx : g x <;> simp [hx, Value.optional]

end Value

/-! ### Definitions -/

def Step.traverse (f : String → Option String) (s : Step) : Option Step :=
  (s.fields.mapM f).bind (ofFields? s.kind)

def Labels.traverse (f : String → Option String) (l : Labels) : Option Labels := do
  return { authors := ← l.authors.mapM f, version := ← l.version.mapM f
           description := ← l.description.mapM f }

def Definition.traverse (f : String → Option String) (d : Definition) : Option Definition := do
  return { base := ← d.base.mapM f, steps := ← d.steps.mapM (Step.traverse f), port := d.port
           entrypoint := ← d.entrypoint.mapM (·.mapM f), command := ← d.command.mapM (·.mapM f)
           author := ← d.author.mapM f, labels := ← d.labels.mapM (Labels.traverse f)
           volumes := ← d.volumes.mapM f }

def Labels.texts (l : Labels) : List String :=
  l.authors ++ l.version.toList ++ l.description.toList

def Definition.texts (d : Definition) : List String :=
  d.base.toList ++ d.steps.flatMap Step.fields ++ d.entrypoint.getD [] ++ d.command.getD []
    ++ d.author.toList ++ (d.labels.map Labels.texts).getD [] ++ d.volumes

section

variable {f : String → Option String}

theorem Step.exists_of_length {k : StepKind} {ts : List String}
    (h : ts.length = k.fieldNames.length) :
    ∃ s, ofFields? k ts = some s ∧ s.kind = k ∧ s.fields = ts := by
  cases k with
  | run | user | workdir =>
    obtain ⟨a, rfl⟩ := List.length_eq_one_iff.mp h
    exact ⟨_, rfl, rfl, rfl⟩
  | env | copy =>
    obtain ⟨a, b, rfl⟩ := List.length_eq_two.mp h
    exact ⟨_, rfl, rfl, rfl⟩

theorem Step.traverse_toValue (hf : ∀ k : StepKind, f k.name = some k.name) (s : Step) :
    s.toValue.traverse f = (s.traverse f).map toValue := by
  rw [toValue, Value.traverse, Value.traverseFields, Value.traverse, hf,
    Value.traverseFields_zip s.length_fields.symm, traverse]
  cases hts : s.fields.mapM f with
  | none => rfl
  | some ts =>
    obtain ⟨t, ht, hkind, rfl⟩ := exists_of_length
      ((mapM_eq_some_iff.mp hts).length_eq.symm.trans s.length_fields)
    simp [ht, toValue, hkind]

theorem Labels.traverse_toValue (l : Labels) :
    l.toValue.traverse f = (l.traverse f).map toValue := by
  simp only [toValue, Value.traverse, Value.traverseFields, Value.traverse_texts,
    Value.traverse_optional Value.traverse_text, traverse]
  cases l.authors.mapM f <;> cases l.version.mapM f <;> cases l.description.mapM f <;> rfl

/-- **A definition is passed through text by text in its record too.** -/
theorem Definition.traverse_toValue (hf : ∀ k : StepKind, f k.name = some k.name)
    (d : Definition) : d.toValue.traverse f = (d.traverse f).map toValue := by
  have hport : (Value.optional (fun p : UInt16 => .number p.toNat) d.port).traverse f
      = some (.optional (fun p => .number p.toNat) d.port) := by
    cases d.port <;> rfl
  simp only [toValue, Value.traverse, Value.traverseFields, Value.traverse_texts,
    Value.traverse_optional Value.traverse_text, Value.traverse_optional Value.traverse_texts,
    Value.traverse_optional Labels.traverse_toValue, hport,
    Value.traverseItems_map (Step.traverse_toValue hf), traverse]
  cases d.base.mapM f <;> cases d.steps.mapM (Step.traverse f) <;>
    cases d.entrypoint.mapM (·.mapM f) <;> cases d.command.mapM (·.mapM f) <;>
    cases d.author.mapM f <;> cases d.labels.mapM (Labels.traverse f) <;>
    cases d.volumes.mapM f <;> rfl

theorem Step.traverse_eq_self_iff {s : Step} :
    s.traverse f = some s ↔ ∀ t ∈ s.fields, f t = some t := by
  rw [← mapM_eq_self_iff, traverse]
  constructor
  · intro h
    obtain ⟨ts, hts, hs⟩ := Option.bind_eq_some_iff.mp h
    obtain ⟨t, ht, -, rfl⟩ := exists_of_length
      ((mapM_eq_some_iff.mp hts).length_eq.symm.trans s.length_fields)
    rw [ht, Option.some.injEq] at hs
    rw [hts, hs]
  · intro h
    rw [h, Option.bind_some, ofFields?_fields]

theorem Labels.traverse_eq_self_iff {l : Labels} :
    l.traverse f = some l ↔ ∀ t ∈ l.texts, f t = some t := by
  obtain ⟨authors, version, description⟩ := l
  simp only [traverse, texts, Option.bind_eq_bind, Option.bind_eq_some_iff, Option.pure_def,
    Option.some.injEq, mk.injEq, ↓existsAndEq, and_true, mapM_eq_self_iff, optionMapM_eq_self_iff,
    List.mem_append, or_imp, forall_and, and_assoc, Option.mem_toList, Option.mem_def]

/-- **A definition stays as it is** if and only if all its texts do. -/
theorem Definition.traverse_eq_self_iff {d : Definition} :
    d.traverse f = some d ↔ ∀ t ∈ d.texts, f t = some t := by
  obtain ⟨base, steps, port, entrypoint, command, author, labels, volumes⟩ := d
  have hlist : ∀ o : Option (List String), o.mapM (·.mapM f) = some o ↔
      ∀ t ∈ o.getD [], f t = some t := by
    rintro (_ | xs) <;> simp [mapM_eq_self_iff]
  have hlabels : ∀ o : Option Labels, o.mapM (Labels.traverse f) = some o ↔
      ∀ t ∈ (o.map Labels.texts).getD [], f t = some t := by
    rintro (_ | l) <;> simp [Labels.traverse_eq_self_iff]
  have hsteps : steps.mapM (Step.traverse f) = some steps ↔
      ∀ t ∈ steps.flatMap Step.fields, f t = some t := by
    simp only [mapM_eq_self_iff, Step.traverse_eq_self_iff, List.forall_mem_flatMap]
  simp only [traverse, texts, Option.bind_eq_bind, Option.bind_eq_some_iff, Option.pure_def,
    Option.some.injEq, mk.injEq, ↓existsAndEq, and_true, true_and, hlist, hlabels, hsteps,
    mapM_eq_self_iff, optionMapM_eq_self_iff, List.mem_append, or_imp, forall_and, and_assoc,
    Option.mem_toList, Option.mem_def]

end

end ImageRecipe
