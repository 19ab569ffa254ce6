import ImageRecipe.Proofs.Build.Changes
import Mathlib.Tactic.IntervalCases

/-!
# When two recipes have one plan

A plan keeps all of a recipe but four things: its name, whether a missing base
image was left out or empty, whether a missing port was left out or zero, and how
the authors in the labels divide into texts.

The rank of an instruction finds the parts of a plan again
(`Definition.filter_rank_plan`), so plans are equal when all their parts are, and
each part is made from one field.  Only the labels have a part in which several
things stand; `Labels.lookup_entries` finds them by their keys.
-/

namespace ImageRecipe

/-! ### Labels -/

namespace Labels

def authorText? (l : Labels) : Option String :=
  if l.authors.isEmpty then none else some (", ".intercalate l.authors)

theorem entries_eq (l : Labels) : l.entries = (l.authorText?.map fun a => (authorsKey, a)).toList
    ++ (l.version.map fun v => (versionKey, v)).toList
    ++ (l.description.map fun d => (descriptionKey, d)).toList := by
  rw [entries, authorText?]
  by_cases h : l.authors.isEmpty <;> simp [h]

/-- Each key finds the label that is written under it. -/
theorem lookup_entries (l : Labels) : l.entries.lookup authorsKey = l.authorText? ∧
    l.entries.lookup versionKey = l.version ∧
    l.entries.lookup descriptionKey = l.description := by
  rw [entries_eq]
  cases l.authorText? <;> cases l.version <;> cases l.description <;> refine ⟨rfl, rfl, rfl⟩

theorem entries_eq_iff {l m : Labels} : l.entries = m.entries ↔
    l.authorText? = m.authorText? ∧ l.version = m.version ∧ l.description = m.description := by
  constructor
  · intro h
    obtain ⟨ha, hv, hd⟩ := l.lookup_entries
    obtain ⟨ha', hv', hd'⟩ := m.lookup_entries
    rw [h] at ha hv hd
    exact ⟨ha.symm.trans ha', hv.symm.trans hv', hd.symm.trans hd'⟩
  · rintro ⟨ha, hv, hd⟩
    rw [entries_eq, entries_eq, ha, hv, hd]

/-- One text of authors may come from many lists of them, but not from the empty list. -/
theorem authorText?_eq_iff {l m : Labels} : l.authorText? = m.authorText? ↔
    (l.authors = [] ∧ m.authors = []) ∨ (l.authors ≠ [] ∧ m.authors ≠ [] ∧
      ", ".intercalate l.authors = ", ".intercalate m.authors) := by
  rw [authorText?, authorText?]
  cases l.authors <;> cases m.authors <;> simp

/-- The labels that are there, none when a recipe has no labels at all. -/
def entriesOf (l : Option Labels) : List (String × String) :=
  (l.map entries).getD []

theorem entriesOf_eq (l : Option Labels) : entriesOf l = (l.getD {}).entries := by
  cases l <;> rfl

/-- Labels are written alike if and only if they agree up to the division of their authors. -/
theorem entriesOf_eq_iff {l m : Option Labels} : entriesOf l = entriesOf m ↔
    (l.getD {}).version = (m.getD {}).version ∧
    (l.getD {}).description = (m.getD {}).description ∧
    (((l.getD {}).authors = [] ∧ (m.getD {}).authors = []) ∨
      ((l.getD {}).authors ≠ [] ∧ (m.getD {}).authors ≠ [] ∧
        ", ".intercalate (l.getD {}).authors = ", ".intercalate (m.getD {}).authors)) := by
  rw [entriesOf_eq, entriesOf_eq, entries_eq_iff, authorText?_eq_iff]
  constructor
  · rintro ⟨hauthors, hversion, hdescription⟩
    exact ⟨hversion, hdescription, hauthors⟩
  · rintro ⟨hversion, hdescription, hauthors⟩
    exact ⟨hauthors, hversion, hdescription⟩

example : entriesOf (some { authors := ["a", "b"] }) = entriesOf (some { authors := ["a, b"] }) :=
  rfl

end Labels

/-! ### Parts of a plan -/

theorem Instruction.ofStep_injective : Function.Injective ofStep := by
  intro s t h
  cases s <;> cases t <;> simp_all [ofStep]

theorem toList_map_eq_iff {α β : Type} {f : α → β} (hf : Function.Injective f) {x y : Option α} :
    (x.map f).toList = (y.map f).toList ↔ x = y := by
  cases x <;> cases y <;> simp [hf.eq_iff]

namespace Definition

variable {d d' : Definition}

/-- The instructions of one rank are one part of the plan. -/
theorem filter_rank_plan (d : Definition) {r : Nat} (hr : r < 8) :
    d.plan.filter (fun i => i.rank = r) = d.part r := by
  have hbefore : (d.partsBefore r).filter (fun i => i.rank = r) = [] := by
    rw [List.filter_eq_nil_iff]
    intro i hi
    simpa using Nat.ne_of_lt (rank_of_mem_partsBefore hi)
  have hpart : (d.part r).filter (fun i => i.rank = r) = d.part r := by
    rw [List.filter_eq_self]
    intro i hi
    simpa using rank_of_mem_part hi
  have hbehind : (d.partsBehind r).filter (fun i => i.rank = r) = [] := by
    rw [List.filter_eq_nil_iff]
    intro i hi
    simpa using Nat.ne_of_gt (rank_of_mem_partsBehind hi)
  rw [d.plan_eq_part hr, List.filter_append, List.filter_append, hbefore, hpart, hbehind,
    List.nil_append, List.append_nil]

/-- **Plans are equal if and only if all their parts are.** -/
theorem plan_eq_iff_part : d.plan = d'.plan ↔ ∀ r < 8, d.part r = d'.part r := by
  constructor
  · intro h r hr
    rw [← d.filter_rank_plan hr, ← d'.filter_rank_plan hr, h]
  · intro h
    rw [plan_eq_parts, plan_eq_parts]
    apply List.flatMap_congr
    intro r hr
    exact h r (List.mem_range.mp hr)

theorem part_base_eq_iff : d.part 0 = d'.part 0 ↔ d.base.getD "" = d'.base.getD "" := by
  simp [part]

theorem part_steps_eq_iff : d.part 1 = d'.part 1 ↔ d.steps = d'.steps :=
  (List.map_injective_iff.mpr Instruction.ofStep_injective).eq_iff

theorem part_port_eq_iff :
    d.part 2 = d'.part 2 ↔ d.port.filter (· ≠ 0) = d'.port.filter (· ≠ 0) :=
  toList_map_eq_iff fun _ _ => Instruction.expose.inj

theorem part_entrypoint_eq_iff : d.part 3 = d'.part 3 ↔ d.entrypoint = d'.entrypoint :=
  toList_map_eq_iff fun _ _ => Instruction.entrypoint.inj

theorem part_volumes_eq_iff : d.part 4 = d'.part 4 ↔ d.volumes = d'.volumes := by
  rw [part, part]
  cases d.volumes <;> cases d'.volumes <;> simp

theorem part_command_eq_iff : d.part 5 = d'.part 5 ↔ d.command = d'.command :=
  toList_map_eq_iff fun _ _ => Instruction.cmd.inj

theorem part_author_eq_iff : d.part 6 = d'.part 6 ↔ d.author = d'.author :=
  toList_map_eq_iff fun _ _ => Instruction.author.inj

theorem part_labels_eq_iff :
    d.part 7 = d'.part 7 ↔ Labels.entriesOf d.labels = Labels.entriesOf d'.labels := by
  have hlabel : Function.Injective fun e : String × String => Instruction.label e.1 e.2 := by
    rintro ⟨k, v⟩ ⟨k', v'⟩ h
    simpa using h
  exact (List.map_injective_iff.mpr hlabel).eq_iff

end Definition

namespace Spec

/-- **What planning forgets.**  Two recipes have one plan if and only if their fields agree, up to a
base image that is left out or empty, a port that is left out or zero, and labels that are written
alike.  Labels are written alike if and only if they agree up to the division of their authors into
texts, where no authors are never the same as some. -/
theorem plan_eq_iff (s t : Spec) :
    (s.plan = t.plan ↔
      s.definition.base.getD "" = t.definition.base.getD "" ∧
      s.definition.steps = t.definition.steps ∧
      s.definition.port.filter (· ≠ 0) = t.definition.port.filter (· ≠ 0) ∧
      s.definition.entrypoint = t.definition.entrypoint ∧
      s.definition.command = t.definition.command ∧
      s.definition.author = t.definition.author ∧
      s.definition.volumes = t.definition.volumes ∧
      Labels.entriesOf s.definition.labels = Labels.entriesOf t.definition.labels) ∧
    ∀ l m : Option Labels, Labels.entriesOf l = Labels.entriesOf m ↔
      (l.getD {}).version = (m.getD {}).version ∧
      (l.getD {}).description = (m.getD {}).description ∧
      (((l.getD {}).authors = [] ∧ (m.getD {}).authors = []) ∨
        ((l.getD {}).authors ≠ [] ∧ (m.getD {}).authors ≠ [] ∧
          ", ".intercalate (l.getD {}).authors = ", ".intercalate (m.getD {}).authors)) := by
  refine ⟨?_, fun _ _ => Labels.entriesOf_eq_iff⟩
  rw [plan, plan, Definition.plan_eq_iff_part, ← Definition.part_base_eq_iff,
    ← Definition.part_steps_eq_iff, ← Definition.part_port_eq_iff,
    ← Definition.part_entrypoint_eq_iff, ← Definition.part_command_eq_iff,
    ← Definition.part_author_eq_iff, ← Definition.part_volumes_eq_iff,
    ← Definition.part_labels_eq_iff]
  constructor
  · intro h
    exact ⟨h 0 (by decide), h 1 (by decide), h 2 (by decide), h 3 (by decide), h 5 (by decide),
      h 6 (by decide), h 4 (by decide), h 7 (by decide)⟩
  · rintro ⟨h0, h1, h2, h3, h5, h6, h4, h7⟩ r hr
    interval_cases r
    exacts [h0, h1, h2, h3, h4, h5, h6, h7]

end Spec

end ImageRecipe
