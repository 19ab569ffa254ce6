import ImageRecipe.Proofs.Build.Lines
import Mathlib.Data.List.TFAE
import Mathlib.Tactic.TFAE

/-!
# Outputs tell the plan

Both ways of writing a plan are faithful to it: two tidy recipes under one name
have the same Dockerfile, or the same script, only if they have the same plan.

A Dockerfile is cut at its line feeds, which no tidy line holds, and each line
tells its instruction.  A script is a list of lines from the start, but a volume
instruction takes several of them, and none of the lines says so.  There each
line tells a part of an instruction, and `rejoin` finds the plan from the parts:
a plan has one volume instruction at most, so neighbouring volumes belong
together.
-/

namespace ImageRecipe

/-- Where each item makes one line and the line tells the item, the lines tell the items. -/
theorem eq_of_flatMap_eq {α β : Type} {P : α → Prop} {f : α → List β}
    (hone : ∀ a, P a → ∃ line, f a = [line]) (hinj : ∀ a b, P a → P b → f a = f b → a = b) :
    ∀ {as bs : List α}, (∀ a ∈ as, P a) → (∀ b ∈ bs, P b) → as.flatMap f = bs.flatMap f → as = bs
  | [], [], _, _, _ => rfl
  | [], b :: bs, _, hb, h => by
    obtain ⟨line, hline⟩ := hone b (hb b List.mem_cons_self)
    simp [hline] at h
  | a :: as, [], ha, _, h => by
    obtain ⟨line, hline⟩ := hone a (ha a List.mem_cons_self)
    simp [hline] at h
  | a :: as, b :: bs, ha, hb, h => by
    have pa := ha a List.mem_cons_self
    have pb := hb b List.mem_cons_self
    obtain ⟨line, hline⟩ := hone a pa
    obtain ⟨line', hline'⟩ := hone b pb
    simp only [List.flatMap_cons, hline, hline', List.singleton_append, List.cons.injEq] at h
    obtain ⟨rfl, hr⟩ := h
    rw [hinj a b pa pb (hline.trans hline'.symm),
      eq_of_flatMap_eq hone hinj (fun x hx => ha x (List.mem_cons_of_mem a hx))
        (fun x hx => hb x (List.mem_cons_of_mem b hx)) hr]

/-- Where each item makes one line, the lines are the image of the items. -/
theorem flatMap_eq_map {α β : Type} {f : α → List β} {g : α → β} {as : List α}
    (h : ∀ a ∈ as, f a = [g a]) : as.flatMap f = as.map g := by
  rw [List.flatMap_congr h]
  exact List.flatMap_pure_eq_map g as

/-! ### Tidy recipes -/

/-- The texts of a step stay on one line and do not run into each other. -/
def Step.Tidy : Step → Prop
  | .run cmd => '\n' ∉ cmd.toList
  | .env name value => '\n' ∉ name.toList ∧ '\n' ∉ value.toList ∧ '=' ∉ name.toList
  | .copy src dest => '\n' ∉ src.toList ∧ '\n' ∉ dest.toList ∧ ' ' ∉ src.toList
  | .user id => '\n' ∉ id.toList
  | .workdir dir => '\n' ∉ dir.toList

instance : DecidablePred Step.Tidy := fun s => by
  cases s <;> simp only [Step.Tidy] <;> infer_instance

/-- The base image and the steps are tidy.  Nothing is asked of the other fields. -/
structure Definition.Tidy (d : Definition) : Prop where
  base : ∀ image ∈ d.base, '\n' ∉ image.toList
  steps : ∀ s ∈ d.steps, s.Tidy

namespace Instruction

theorem tidy_ofStep {s : Step} (h : s.Tidy) : (ofStep s).Tidy := by
  cases s <;> exact h

theorem tidy_label {l : Labels} {e : String × String} (he : e ∈ l.entries) :
    (label e.1 e.2).Tidy := by
  simp only [Labels.entries, List.mem_append, Option.mem_toList, Option.map_eq_some_iff] at he
  rcases he with (he | ⟨v, _, rfl⟩) | ⟨v, _, rfl⟩
  · split at he
    · simp at he
    · rw [List.mem_singleton.mp he]; simp [Tidy]
  · simp [Tidy]
  · simp [Tidy]

end Instruction

theorem Definition.Tidy.plan {d : Definition} (h : d.Tidy) : ∀ i ∈ d.plan, i.Tidy := by
  intro i hi
  simp only [Definition.plan, Definition.trailing, List.cons_append, List.mem_cons,
    List.mem_append, List.mem_map, Option.mem_toList, Option.map_eq_some_iff] at hi
  rcases hi with rfl | ⟨s, hs, rfl⟩ | ((((⟨_, _, rfl⟩ | ⟨_, _, rfl⟩) | hv) | ⟨_, _, rfl⟩) |
    ⟨_, _, rfl⟩) | ⟨e, he, rfl⟩
  · cases hb : d.base with
    | none => simp [Instruction.Tidy]
    | some image => exact h.base image hb
  · exact Instruction.tidy_ofStep (h.steps s hs)
  · trivial
  · trivial
  · split at hv
    · simp at hv
    · rw [List.mem_singleton.mp hv]; trivial
  · trivial
  · trivial
  · cases hl : d.labels with
    | none => simp [hl] at he
    | some l => exact Instruction.tidy_label (by simpa [hl] using he)

/-! ### Parts of instructions -/

namespace Instruction

/-- An instruction cut into those that take one script line each. -/
def parts : Instruction → List Instruction
  | .volume paths => paths.map fun path => .volume [path]
  | i => [i]

/-- Puts volumes in front of volumes into one instruction. -/
def join : Instruction → List Instruction → List Instruction
  | .volume paths, .volume more :: r => .volume (paths ++ more) :: r
  | i, r => i :: r

def rejoin (is : List Instruction) : List Instruction :=
  is.foldr join []

def IsVolume (i : Instruction) : Prop :=
  ∃ paths, i = .volume paths

theorem parts_of_not_isVolume {i : Instruction} (h : ¬i.IsVolume) : i.parts = [i] := by
  cases i <;> first | rfl | exact absurd ⟨_, rfl⟩ h

theorem join_of_not_isVolume {i : Instruction} (h : ¬i.IsVolume) (r : List Instruction) :
    join i r = i :: r := by
  cases i <;> first | rfl | exact absurd ⟨_, rfl⟩ h

theorem single_of_mem_parts {i j : Instruction} (h : j ∈ i.parts) : j.Single := by
  intro paths hp
  by_cases hi : i.IsVolume
  · obtain ⟨all, rfl⟩ := hi
    obtain ⟨path, _, rfl⟩ := List.mem_map.mp h
    exact ⟨path, (Instruction.volume.inj hp).symm⟩
  · rw [parts_of_not_isVolume hi, List.mem_singleton] at h
    exact absurd ⟨paths, h ▸ hp⟩ hi

theorem Tidy.of_mem_parts {i j : Instruction} (hi : i.Tidy) (h : j ∈ i.parts) : j.Tidy := by
  by_cases hv : i.IsVolume
  · obtain ⟨all, rfl⟩ := hv
    obtain ⟨path, _, rfl⟩ := List.mem_map.mp h
    trivial
  · rw [parts_of_not_isVolume hv, List.mem_singleton] at h
    exact h ▸ hi

/-- The parts of an instruction have its lines. -/
theorem flatMap_script_parts (identity : String) (i : Instruction) :
    i.parts.flatMap (script identity) = i.script identity := by
  by_cases hv : i.IsVolume
  · obtain ⟨paths, rfl⟩ := hv
    rw [parts, List.flatMap_map]
    exact List.flatMap_pure_eq_map _ paths
  · rw [parts_of_not_isVolume hv, List.flatMap_singleton]

theorem foldr_join_volume {r : List Instruction} (hr : ∀ i ∈ r, ¬i.IsVolume) (path : String)
    (paths : List String) :
    ((path :: paths).map fun p => volume [p]).foldr join r = volume (path :: paths) :: r := by
  induction paths generalizing path with
  | nil =>
    cases r with
    | nil => rfl
    | cons i r =>
      cases i <;> first | rfl | exact absurd ⟨_, rfl⟩ (hr _ List.mem_cons_self)
  | cons q qs ih => rw [List.map_cons, List.foldr_cons, ih]; rfl

theorem foldr_join_of_not_isVolume {is r : List Instruction} (h : ∀ i ∈ is, ¬i.IsVolume) :
    (is.flatMap parts).foldr join r = is ++ r := by
  induction is with
  | nil => rfl
  | cons i is ih =>
    have hi := h i List.mem_cons_self
    rw [List.flatMap_cons, parts_of_not_isVolume hi, List.singleton_append, List.foldr_cons,
      ih fun j hj => h j (List.mem_cons_of_mem i hj), join_of_not_isVolume hi, List.cons_append]

end Instruction

/-! ### Plans -/

namespace Definition

def beforeVolumes (d : Definition) : List Instruction :=
  .from (d.base.getD "") :: d.steps.map .ofStep ++ ((d.port.filter (· ≠ 0)).map .expose).toList
    ++ (d.entrypoint.map .entrypoint).toList

def behindVolumes (d : Definition) : List Instruction :=
  (d.command.map .cmd).toList ++ (d.author.map .author).toList
    ++ ((d.labels.map Labels.entries).getD []).map fun e => .label e.1 e.2

theorem plan_eq (d : Definition) : d.plan = d.beforeVolumes
    ++ ((if d.volumes.isEmpty then [] else [.volume d.volumes]) ++ d.behindVolumes) := by
  simp [plan, trailing, beforeVolumes, behindVolumes]

theorem not_isVolume_of_mem_beforeVolumes {d : Definition} :
    ∀ i ∈ d.beforeVolumes, ¬i.IsVolume := by
  intro i hi
  simp only [beforeVolumes, List.cons_append, List.mem_cons, List.mem_append, List.mem_map,
    Option.mem_toList, Option.map_eq_some_iff] at hi
  rcases hi with rfl | (⟨s, _, rfl⟩ | ⟨_, _, rfl⟩) | ⟨_, _, rfl⟩
  · rintro ⟨_, h⟩; cases h
  · rintro ⟨_, h⟩; cases s <;> cases h
  · rintro ⟨_, h⟩; cases h
  · rintro ⟨_, h⟩; cases h

theorem not_isVolume_of_mem_behindVolumes {d : Definition} :
    ∀ i ∈ d.behindVolumes, ¬i.IsVolume := by
  intro i hi
  simp only [behindVolumes, List.mem_append, List.mem_map, Option.mem_toList,
    Option.map_eq_some_iff] at hi
  rcases hi with (⟨_, _, rfl⟩ | ⟨_, _, rfl⟩) | ⟨_, _, rfl⟩ <;> rintro ⟨_, h⟩ <;> cases h

/-- **A plan is found from its parts.** -/
theorem rejoin_parts_plan (d : Definition) :
    Instruction.rejoin (d.plan.flatMap Instruction.parts) = d.plan := by
  have hbehind : (d.behindVolumes.flatMap Instruction.parts).foldr Instruction.join []
      = d.behindVolumes := by
    rw [Instruction.foldr_join_of_not_isVolume not_isVolume_of_mem_behindVolumes, List.append_nil]
  rw [Instruction.rejoin, plan_eq, List.flatMap_append, List.flatMap_append, List.foldr_append,
    List.foldr_append, hbehind]
  cases hv : d.volumes with
  | nil => exact Instruction.foldr_join_of_not_isVolume not_isVolume_of_mem_beforeVolumes
  | cons path paths =>
    have hjoin := Instruction.foldr_join_volume
      (not_isVolume_of_mem_behindVolumes (d := d)) path paths
    simp only [List.isEmpty_cons, Bool.false_eq_true, if_false, List.flatMap_singleton,
      Instruction.parts, hjoin]
    exact Instruction.foldr_join_of_not_isVolume not_isVolume_of_mem_beforeVolumes

end Definition

/-! ### From outputs to plans -/

namespace Spec

theorem splitOn_dockerfile {s : Spec} (hs : s.definition.Tidy) :
    List.splitOn '\n' s.dockerfile.toList = (s.plan.map Instruction.line).map String.toList := by
  rw [dockerfile, String.toList_intercalate]
  refine List.splitOn_intercalate _ (fun l hl => ?_) (by simp [plan, Definition.plan])
  simp only [List.map_map, List.mem_map, Function.comp_apply] at hl
  obtain ⟨i, hi, rfl⟩ := hl
  exact (hs.plan i hi).newline_notMem_line

variable {s t : Spec}

theorem plan_eq_of_dockerfile_eq (hs : s.definition.Tidy) (ht : t.definition.Tidy)
    (h : s.dockerfile = t.dockerfile) : s.plan = t.plan := by
  have hlines : s.plan.map Instruction.line = t.plan.map Instruction.line :=
    List.map_injective_iff.mpr (fun _ _ => String.toList_inj.mp)
      (by rw [← splitOn_dockerfile hs, ← splitOn_dockerfile ht, h])
  rw [List.map_eq_flatMap, List.map_eq_flatMap] at hlines
  exact eq_of_flatMap_eq (P := Instruction.Tidy) (fun _ _ => ⟨_, rfl⟩)
    (fun _ _ hi hj h => Instruction.line_inj hi hj (List.singleton_inj.mp h)) hs.plan ht.plan hlines

theorem plan_eq_of_flatMap_script_eq {identity : String} (hs : s.definition.Tidy)
    (ht : t.definition.Tidy) (h : s.plan.flatMap (Instruction.script identity)
      = t.plan.flatMap (Instruction.script identity)) : s.plan = t.plan := by
  have cut : ∀ is : List Instruction, (is.flatMap Instruction.parts).flatMap
      (Instruction.script identity) = is.flatMap (Instruction.script identity) := by
    intro is
    simp only [List.flatMap_assoc, Instruction.flatMap_script_parts]
  have tidy : ∀ {d : Definition}, d.Tidy →
      ∀ j ∈ d.plan.flatMap Instruction.parts, j.Tidy ∧ j.Single := by
    intro d hd j hj
    obtain ⟨i, hi, hj⟩ := List.mem_flatMap.mp hj
    exact ⟨(hd.plan i hi).of_mem_parts hj, Instruction.single_of_mem_parts hj⟩
  have hparts : s.plan.flatMap Instruction.parts = t.plan.flatMap Instruction.parts :=
    eq_of_flatMap_eq (P := fun i : Instruction => i.Tidy ∧ i.Single)
      (fun _ hi => hi.2.exists_script_eq identity)
      (fun _ _ hi hj => Instruction.script_inj hi.1 hj.1 hi.2 hj.2) (tidy hs) (tidy ht)
      (by rw [cut, cut, h])
  calc s.plan = Instruction.rejoin (s.plan.flatMap Instruction.parts) :=
        s.definition.rejoin_parts_plan.symm
    _ = Instruction.rejoin (t.plan.flatMap Instruction.parts) := by rw [hparts]
    _ = t.plan := t.definition.rejoin_parts_plan

theorem script_eq_iff (hid : s.identity = t.identity) (hs : s.definition.Tidy)
    (ht : t.definition.Tidy) {image image' : String} :
    s.script image = t.script image' ↔ s.plan = t.plan ∧ image = image' := by
  constructor
  · intro h
    obtain ⟨hlines, hcommit⟩ := List.append_inj' h rfl
    rw [hid] at hlines hcommit
    exact ⟨plan_eq_of_flatMap_script_eq hs ht hlines,
      by simpa [Script.commit, String.append_right_inj] using hcommit⟩
  · rintro ⟨hplan, rfl⟩
    rw [script, script, hplan, hid]

/-- **Both outputs are faithful to the plan**, and therefore to each other. -/
theorem plan_dockerfile_script_tfae (hid : s.identity = t.identity) (hs : s.definition.Tidy)
    (ht : t.definition.Tidy) (image : String) :
    [s.plan = t.plan, s.dockerfile = t.dockerfile, s.script image = t.script image].TFAE ∧
      ∀ image', s.script image = t.script image' → s.plan = t.plan := by
  refine ⟨?_, fun image' h => ((script_eq_iff hid hs ht).mp h).1⟩
  tfae_have 1 → 2 := fun h => by rw [dockerfile, dockerfile, h]
  tfae_have 2 → 1 := plan_eq_of_dockerfile_eq hs ht
  tfae_have 1 ↔ 3 := by simp [script_eq_iff hid hs ht]
  tfae_finish

/-- Two recipes that differ, and yet have one plan: a port that counts as none, and volumes and an
author that no line could hold as they are. -/
theorem plan_dockerfile_script_tfae_hostile :
    let d : Definition :=
      { base := some "alpine", steps := [.env "A" "1=2", .copy "a" "/b c"], volumes := ["/v' \n"],
        author := some "\"\n" }
    let s : Spec := ⟨"c0", d⟩
    let t : Spec := ⟨"c0", { d with port := some 0 }⟩
    (s.identity = t.identity ∧ s.definition.Tidy ∧ t.definition.Tidy) ∧
      [s.plan = t.plan, s.dockerfile = t.dockerfile, s.script "i" = t.script "i"].TFAE ∧
        ∀ image', s.script "i" = t.script image' → s.plan = t.plan := by
  intro d s t
  have hs : s.definition.Tidy := ⟨by decide, by decide⟩
  have ht : t.definition.Tidy := ⟨by decide, by decide⟩
  exact ⟨⟨rfl, hs, ht⟩, plan_dockerfile_script_tfae (s := s) (t := t) rfl hs ht "i"⟩

end Spec

end ImageRecipe
