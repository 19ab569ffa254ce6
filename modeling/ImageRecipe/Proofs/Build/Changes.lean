import ImageRecipe.Proofs.Build.ScriptOperations
import ImageRecipe.Proofs.Recipe.History

/-!
# What a change does to plans and scripts

A plan has eight parts in a fixed order, some of which may be empty: the base
image, the steps, and the six kinds of trailing instructions.  `Instruction.rank`
says to which part an instruction belongs, and `Change.rank` on which part a
change works.  `Definition.Frame` is what a change leaves alone, so that all
parts but its own stand in the new plan as in the old one, and so do their lines
in the script.
-/

namespace ImageRecipe

/-! ### The parts of a plan -/

/-- The number of the part of a plan to which an instruction belongs. -/
def Instruction.rank : Instruction → Nat
  | .from _ => 0
  | .run _ | .env _ _ | .user _ | .copy _ _ | .workdir _ => 1
  | .expose _ => 2
  | .entrypoint _ => 3
  | .volume _ => 4
  | .cmd _ => 5
  | .author _ => 6
  | .label _ _ => 7

theorem Instruction.rank_ofStep (s : Step) : (ofStep s).rank = 1 := by
  cases s <;> rfl

namespace Definition

variable {d d' : Definition} {r : Nat}

def part (d : Definition) : Nat → List Instruction
  | 0 => [.from (d.base.getD "")]
  | 1 => d.steps.map .ofStep
  | 2 => ((d.port.filter (· ≠ 0)).map .expose).toList
  | 3 => (d.entrypoint.map .entrypoint).toList
  | 4 => if d.volumes.isEmpty then [] else [.volume d.volumes]
  | 5 => (d.command.map .cmd).toList
  | 6 => (d.author.map .author).toList
  | 7 => ((d.labels.map Labels.entries).getD []).map fun e => .label e.1 e.2
  | _ => []

theorem rank_of_mem_part {i : Instruction} (h : i ∈ d.part r) : i.rank = r := by
  match r with
  | 0 => rw [List.mem_singleton.mp h]; rfl
  | 1 => obtain ⟨s, _, rfl⟩ := List.mem_map.mp h; exact Instruction.rank_ofStep s
  | 2 | 3 | 5 | 6 =>
    obtain ⟨_, _, rfl⟩ := Option.map_eq_some_iff.mp (Option.mem_toList.mp h)
    rfl
  | 4 =>
    rw [part] at h
    split at h
    · cases h
    · rw [List.mem_singleton.mp h]; rfl
  | 7 => obtain ⟨e, _, rfl⟩ := List.mem_map.mp h; rfl
  | _ + 8 => cases h

def partsBefore (d : Definition) (r : Nat) : List Instruction :=
  (List.range r).flatMap d.part

def partsBehind (d : Definition) (r : Nat) : List Instruction :=
  (List.range' (r + 1) (7 - r)).flatMap d.part

theorem plan_eq_parts (d : Definition) : d.plan = (List.range 8).flatMap d.part := by
  simp [plan, trailing, part, List.range_succ]

/-- **A plan is cut at any of its parts.** -/
theorem plan_eq_part (d : Definition) (hr : r < 8) :
    d.plan = d.partsBefore r ++ d.part r ++ d.partsBehind r := by
  have hrange : List.range 8 = List.range r ++ r :: List.range' (r + 1) (7 - r) := by
    have happend := List.range'_append_1 (s := 0) (m := r) (n := 8 - r)
    rw [Nat.zero_add, Nat.add_sub_of_le (Nat.le_of_lt hr), show 8 - r = 7 - r + 1 by omega,
      List.range'_succ] at happend
    rw [List.range_eq_range', List.range_eq_range', happend]
  rw [plan_eq_parts, hrange, List.flatMap_append, List.flatMap_cons, ← List.append_assoc]
  rfl

theorem rank_of_mem_partsBefore {i : Instruction} (h : i ∈ d.partsBefore r) : i.rank < r := by
  obtain ⟨k, hk, hi⟩ := List.mem_flatMap.mp h
  exact rank_of_mem_part hi ▸ List.mem_range.mp hk

theorem rank_of_mem_partsBehind {i : Instruction} (h : i ∈ d.partsBehind r) : r < i.rank := by
  obtain ⟨k, hk, hi⟩ := List.mem_flatMap.mp h
  exact rank_of_mem_part hi ▸ (List.mem_range'_1.mp hk).1

/-! ### What a change leaves alone -/

/-- Two definitions differ at most in what the part with a number is made from. -/
structure Frame (r : Nat) (d d' : Definition) : Prop where
  base : r ≠ 0 → d'.base = d.base
  steps : r ≠ 1 → d'.steps = d.steps
  port : r ≠ 2 → d'.port = d.port
  entrypoint : r ≠ 3 → d'.entrypoint = d.entrypoint
  volumes : r ≠ 4 → d'.volumes = d.volumes
  command : r ≠ 5 → d'.command = d.command
  author : r ≠ 6 → d'.author = d.author
  labels : r ≠ 7 → d'.labels = d.labels

theorem Frame.part_eq (h : Frame r d d') {k : Nat} (hk : r ≠ k) : d'.part k = d.part k := by
  match k with
  | 0 => rw [part, part, h.base hk]
  | 1 => rw [part, part, h.steps hk]
  | 2 => rw [part, part, h.port hk]
  | 3 => rw [part, part, h.entrypoint hk]
  | 4 => rw [part, part, h.volumes hk]
  | 5 => rw [part, part, h.command hk]
  | 6 => rw [part, part, h.author hk]
  | 7 => rw [part, part, h.labels hk]
  | _ + 8 => rfl

theorem Frame.partsBefore_eq (h : Frame r d d') : d'.partsBefore r = d.partsBefore r :=
  List.flatMap_congr fun _ hk => h.part_eq (Nat.ne_of_gt (List.mem_range.mp hk))

theorem Frame.partsBehind_eq (h : Frame r d d') : d'.partsBehind r = d.partsBehind r :=
  List.flatMap_congr fun _ hk => h.part_eq (Nat.ne_of_lt (List.mem_range'_1.mp hk).1)

end Definition

namespace Change

/-- The number of the part of a plan on which a change works. -/
def rank : Change → Nat
  | .base _ => 0
  | .run _ | .env _ _ | .copy _ _ | .user _ | .workdir _ => 1
  | .expose _ => 2
  | .entrypoint _ => 3
  | .volume _ => 4
  | .command _ => 5
  | .author _ => 6
  | .labels _ => 7

theorem rank_lt (c : Change) : c.rank < 8 := by
  cases c <;> simp [rank]

def part (d : Definition) : Change → List Instruction
  | .base image => [.from image]
  | .expose port => if port = 0 then [] else [.expose port]
  | .entrypoint argv => [.entrypoint (argv.flatMap Argument.texts)]
  | .volume path => [.volume (d.volumes ++ [path])]
  | .command argv => [.cmd (argv.flatMap Argument.texts)]
  | .author name => [.author name]
  | .labels l => l.entries.map fun e => .label e.1 e.2
  | c => d.steps.map .ofStep ++ (c.step?.map .ofStep).toList

end Change

open Definition (Frame)

namespace Spec

variable {s s' : Spec} {c : Change}

/-- **A change that is not refused works on its own part**, and on that alone. -/
theorem apply_frame (h : s.apply c = .ok s') :
    s'.identity = s.identity ∧ Frame c.rank s.definition s'.definition ∧
      s'.definition.part c.rank = c.part s.definition := by
  cases c
  case copy src dest =>
    by_cases hdest : dest.toList.head? = some '/'
    · obtain rfl : ⟨s.identity, s.definition.addStep (.copy src dest)⟩ = s' := by
        simpa [apply, perform_copy, absolutePath, hdest, Except.map] using h
      refine ⟨rfl, by constructor <;> simp [Change.rank, Definition.addStep], ?_⟩
      simp [Definition.part, Change.part, Change.rank, Definition.addStep, hdest]
    · simp [apply, perform_copy, absolutePath, hdest, Except.map] at h
  case expose port =>
    obtain rfl := Except.ok.inj h
    refine ⟨rfl, by constructor <;> simp [Change.rank, perform, edit, run_modify], ?_⟩
    by_cases hport : port = 0 <;>
      simp [Definition.part, Change.part, Change.rank, hport, perform, edit, run_modify]
  all_goals
    obtain rfl := Except.ok.inj h
    refine ⟨rfl, by
      constructor <;> simp [Change.rank, Definition.addStep, perform, edit, run_modify], ?_⟩
    simp [Definition.part, Change.part, Change.rank, Definition.addStep, perform, edit,
      run_modify]

theorem plan_of_apply (h : s.apply c = .ok s') :
    s'.plan = s.definition.partsBefore c.rank ++ c.part s.definition
      ++ s.definition.partsBehind c.rank := by
  obtain ⟨_, hframe, hpart⟩ := apply_frame h
  rw [plan, Definition.plan_eq_part _ c.rank_lt, hframe.partsBefore_eq, hpart,
    hframe.partsBehind_eq]

theorem rank_of_mem_changePart (h : s.apply c = .ok s') {i : Instruction}
    (hi : i ∈ c.part s.definition) : i.rank = c.rank := by
  rw [← (apply_frame h).2.2] at hi
  exact Definition.rank_of_mem_part hi

/-- The lines of instructions, without a commit. -/
def lines (s : Spec) (is : List Instruction) : List String :=
  is.flatMap (Instruction.script s.identity)

def volumeLine (s : Spec) (path : String) : String :=
  Script.config "--volume" (Script.apostrophes path) s.identity

/-- A script is cut where its plan is. -/
theorem script_of_plan_eq {before part behind : List Instruction}
    (h : s.plan = before ++ part ++ behind) (image : String) : s.script image
      = s.lines before ++ s.lines part ++ (s.lines behind ++ [Script.commit s.identity image]) := by
  rw [script, h, lines, lines, lines, List.flatMap_append, List.flatMap_append,
    List.append_assoc _ _ [_]]

theorem script_of_apply (h : s.apply c = .ok s') (image : String) : s'.script image
    = s.lines (s.definition.partsBefore c.rank) ++ s.lines (c.part s.definition)
      ++ (s.lines (s.definition.partsBehind c.rank) ++ [Script.commit s.identity image]) := by
  have hscript := script_of_plan_eq (plan_of_apply h) image
  simp only [lines, (apply_frame h).1] at hscript
  exact hscript

theorem lines_volumes (s : Spec) (paths : List String) :
    s.lines (if paths.isEmpty then [] else [.volume paths]) = paths.map s.volumeLine := by
  cases paths with
  | nil => rfl
  | cons path paths => exact List.flatMap_singleton _ _

/-! ### Where a step comes in -/

theorem insertIdx_length_append {α : Type} (before behind : List α) (x : α) :
    (before ++ behind).insertIdx before.length x = before ++ x :: behind :=
  List.modifyTailIdx_add (List.cons x) 0 before behind

theorem part_of_step {step : Step} (hstep : c.step? = some step) (d : Definition) :
    c.rank = 1 ∧ c.part d = d.part 1 ++ [.ofStep step] := by
  cases c <;> simp_all [Change.rank, Change.part, Definition.part]

/-- The instructions of the base image and of the steps take one line each. -/
theorem length_lines_steps (s : Spec) : (s.lines (s.definition.partsBefore 1)
    ++ s.lines (s.definition.part 1)).length = s.definition.steps.length + 1 := by
  have hsteps : ∀ i ∈ s.definition.part 1, ¬i.IsVolume := by
    intro i hi
    obtain ⟨step, _, rfl⟩ := List.mem_map.mp hi
    exact Instruction.not_isVolume_ofStep step
  have hlines : s.lines (s.definition.part 1)
      = (s.definition.part 1).map (Instruction.scriptLine s.identity) :=
    Instruction.flatMap_script_of_not_isVolume hsteps s.identity
  rw [hlines, List.length_append, List.length_map, Definition.part, List.length_map, Nat.add_comm]
  rfl

/-- A step comes in behind the instructions of the base image and of the steps. -/
theorem plan_of_step (h : s.apply c = .ok s') {step : Step} (hstep : c.step? = some step) :
    s.definition.steps.length < s.plan.length ∧
    s'.plan = s.plan.insertIdx (s.definition.steps.length + 1) (.ofStep step) := by
  obtain ⟨hrank, hpart⟩ := part_of_step hstep s.definition
  have hlength : (s.definition.partsBefore 1 ++ s.definition.part 1).length
      = s.definition.steps.length + 1 := by
    rw [List.length_append, Definition.part, List.length_map, Nat.add_comm]
    rfl
  have hold : s.plan = s.definition.partsBefore 1 ++ s.definition.part 1
      ++ s.definition.partsBehind 1 := s.definition.plan_eq_part (by decide)
  refine ⟨?_, ?_⟩
  · rw [hold, List.length_append, hlength]
    omega
  · rw [plan_of_apply h, hold, hrank, hpart, ← hlength, insertIdx_length_append]
    simp only [List.append_assoc, List.singleton_append]

/-- The line of a step comes in behind the lines of the base image and of the steps. -/
theorem script_of_step (h : s.apply c = .ok s') {step : Step} (hstep : c.step? = some step)
    (image : String) : s'.script image = (s.script image).insertIdx (s.definition.steps.length + 1)
      ((Instruction.ofStep step).scriptLine s.identity) := by
  obtain ⟨hrank, hpart⟩ := part_of_step hstep s.definition
  have hlines : s.lines (s.definition.part 1 ++ [.ofStep step]) = s.lines (s.definition.part 1)
      ++ [(Instruction.ofStep step).scriptLine s.identity] := by
    rw [lines, List.flatMap_append, List.flatMap_singleton,
      Instruction.script_of_not_isVolume (Instruction.not_isVolume_ofStep step)]
    rfl
  rw [script_of_apply h, script_of_plan_eq (s.definition.plan_eq_part (by decide : 1 < 8)),
    hrank, hpart, hlines, ← s.length_lines_steps, insertIdx_length_append]
  simp only [List.append_assoc, List.singleton_append]

/-! ### What a change does -/

/-- What becomes of a plan and of the script of an image when a change turns one recipe into
another. -/
structure ChangedBy (c : Change) (image : String) (s s' : Spec) : Prop where
  /-- Only the part of the change is new in the plan. -/
  plan_old : s.plan = s.definition.partsBefore c.rank ++ s.definition.part c.rank
    ++ s.definition.partsBehind c.rank
  plan_new : s'.plan = s.definition.partsBefore c.rank ++ c.part s.definition
    ++ s.definition.partsBehind c.rank
  /-- The parts stand in the order of their kinds. -/
  rank_before : ∀ i ∈ s.definition.partsBefore c.rank, i.rank < c.rank
  rank_part : ∀ i ∈ s.definition.part c.rank ++ c.part s.definition, i.rank = c.rank
  rank_behind : ∀ i ∈ s.definition.partsBehind c.rank, c.rank < i.rank
  /-- Only the lines of this part are new in the script. -/
  script_old : s.script image = s.lines (s.definition.partsBefore c.rank)
    ++ s.lines (s.definition.part c.rank)
    ++ (s.lines (s.definition.partsBehind c.rank) ++ [Script.commit s.identity image])
  script_new : s'.script image = s.lines (s.definition.partsBefore c.rank)
    ++ s.lines (c.part s.definition)
    ++ (s.lines (s.definition.partsBehind c.rank) ++ [Script.commit s.identity image])
  /-- A new image replaces the first instruction and the first line. -/
  base : ∀ base, c = .base base → s'.plan = s.plan.set 0 (.from base) ∧
    s'.script image = (s.script image).set 0 ((Instruction.from base).scriptLine s.identity)
  /-- A step becomes one instruction and one line, right behind those of the steps before it. -/
  step : ∀ step, c.step? = some step →
    s.definition.steps.length < s.plan.length ∧
    s'.plan = s.plan.insertIdx (s.definition.steps.length + 1) (.ofStep step) ∧
    ∃ line, (Instruction.ofStep step).script s.identity = [line] ∧
      s.definition.steps.length < (s.script image).length ∧
      s'.script image = (s.script image).insertIdx (s.definition.steps.length + 1) line
  /-- A volume becomes one line, right behind those of the volumes before it. -/
  volume : ∀ path, c = .volume path →
    s.lines (s.definition.part c.rank) = s.definition.volumes.map s.volumeLine ∧
    s.lines (c.part s.definition) = s.definition.volumes.map s.volumeLine ++ [s.volumeLine path]

/-- **A change works on its own part of the plan and of the script**, and a refused change on
neither. -/
theorem apply_changes_own_part (s : Spec) (c : Change) (image : String) :
    (∀ s', s.apply c = .ok s' → ChangedBy c image s s') ∧
    ∀ e, s.apply c = .error e → (s.applyOrKeep c).plan = s.plan ∧
      (s.applyOrKeep c).dockerfile = s.dockerfile ∧
      (s.applyOrKeep c).script image = s.script image := by
  refine ⟨fun s' h => ?_, fun e h => ?_⟩
  · have hplan := s.definition.plan_eq_part c.rank_lt
    have hscript := script_of_plan_eq hplan image
    refine
      { plan_old := hplan
        plan_new := plan_of_apply h
        rank_before := fun i hi => Definition.rank_of_mem_partsBefore hi
        rank_part := fun i hi => (List.mem_append.mp hi).elim Definition.rank_of_mem_part
          (rank_of_mem_changePart h)
        rank_behind := fun i hi => Definition.rank_of_mem_partsBehind hi
        script_old := hscript
        script_new := script_of_apply h image
        base := ?_
        step := ?_
        volume := ?_ }
    · rintro base rfl
      refine ⟨?_, ?_⟩
      · rw [plan_of_apply h, plan, hplan]
        rfl
      · rw [script_of_apply h, hscript]
        rfl
    · intro step hstep
      obtain ⟨hlength, hinsert⟩ := plan_of_step h hstep
      have hscriptLength := s.length_script image
      exact ⟨hlength, hinsert, _, Instruction.script_of_not_isVolume
        (Instruction.not_isVolume_ofStep step) _, by omega, script_of_step h hstep image⟩
    · rintro path rfl
      refine ⟨s.lines_volumes _, ?_⟩
      rw [lines, Change.part, List.flatMap_singleton, Instruction.script, List.map_append]
      rfl
  · rw [applyOrKeep_of_refused (exists_apply_eq_error_iff.mp ⟨e, h⟩)]
    exact ⟨rfl, rfl, rfl⟩

end Spec

end ImageRecipe
