import ImageRecipe.Proofs.Build.Faithful
import Mathlib.Data.List.Destutter

/-!
# What the lines of a script do

The first words of a script line say which instruction it carries out, whatever
the texts behind them hold.  `Script.role` reads these words.  Line by line it
gives the keywords of the plan, with one `VOLUME` for each volume, and then the
commit; without the repetitions it gives the plan's keywords themselves.

`Spec.script_eq` says where the lines of a script come from: one from each
instruction, but for the volumes, which come one by one.
-/

namespace ImageRecipe

namespace Script

/-! ### Reading the first words of a line -/

/-- The words of a line: what stands between blanks. -/
def words (line : String) : List String :=
  ((line.toList.splitOnP Text.isBlank).filter (· ≠ [])).map .ofList

/-- What a line of a script does: it carries out an instruction with the given keyword, or commits
the container. -/
inductive Role where
  | operation (keyword : String)
  | commit
  | unknown
  deriving DecidableEq, Repr

def optionRole : String → Role
  | "--env" => .operation "ENV"
  | "--user" => .operation "USER"
  | "--workingdir" => .operation "WORKDIR"
  | "--port" => .operation "EXPOSE"
  | "--entrypoint" => .operation "ENTRYPOINT"
  | "--volume" => .operation "VOLUME"
  | "--cmd" => .operation "CMD"
  | "--author" => .operation "LABEL"
  | "--label" => .operation "LABEL"
  | _ => .unknown

def wordsRole : List String → Role
  | "from" :: _ => .operation "FROM"
  | "run" :: _ => .operation "RUN"
  | "commit" :: _ => .commit
  | "config" :: option :: _ => optionRole option
  | _ => .unknown

def role (line : String) : Role :=
  if "export MNT=$(buildah mount ".toList.isPrefixOf line.toList then .operation "COPY"
  else wordsRole (words line).tail

theorem words_append_space {w : String} (hne : w ≠ "") (hw : w.toList.any Text.isBlank = false)
    (rest : String) : words (w ++ " " ++ rest) = w :: words rest := by
  have hchars : (w ++ " " ++ rest).toList = w.toList ++ ' ' :: rest.toList := by simp
  have hfirst : w.toList.splitOnP Text.isBlank = [w.toList] :=
    List.splitOnP_eq_singleton fun c hc => Bool.eq_false_iff.mpr (List.any_eq_false.mp hw c hc)
  have hkeep : decide (w.toList ≠ []) = true := by simpa using hne
  rw [words, hchars, List.splitOnP_append_cons _ _ (by decide), hfirst, List.singleton_append,
    List.filter_cons, if_pos hkeep, List.map_cons, String.ofList_toList, words]

/-- Only a copy does not start with the name of the tool. -/
theorem role_tool (rest : String) : role (tool ++ " " ++ rest) = wordsRole (words rest) := by
  have hcopy : "export MNT=$(buildah mount ".toList.isPrefixOf (tool ++ " " ++ rest).toList
      = false := by
    simp [tool, List.isPrefixOf]
  rw [role, hcopy, words_append_space (by decide) rfl, List.tail_cons]
  rfl

theorem role_config {option : String} (hne : option ≠ "")
    (hoption : option.toList.any Text.isBlank = false) (value identity : String) :
    role (config option value identity) = optionRole option := by
  have hline : config option value identity
      = tool ++ " " ++ ("config" ++ " " ++ (option ++ " " ++ (value ++ " " ++ identity))) := by
    simp [config, ← String.toList_inj]
  rw [hline, role_tool, words_append_space (by decide) rfl,
    words_append_space hne hoption]
  rfl

theorem role_commit (identity image : String) : role (commit identity image) = .commit := by
  have hline : commit identity image
      = tool ++ " " ++ ("commit" ++ " " ++ (identity ++ " " ++ image)) := by
    simp [commit, ← String.toList_inj]
  rw [hline, role_tool, words_append_space (by decide) rfl]
  rfl

end Script

/-! ### The lines of an instruction -/

namespace Instruction

/-- **The lines of an instruction do what its keyword says**, whatever its texts are. -/
theorem role_of_mem_script {identity line : String} {i : Instruction}
    (h : line ∈ i.script identity) : Script.role line = .operation i.keyword := by
  cases i with
  | «from» image =>
    have hline : line = Script.tool ++ " " ++ ("from" ++ " " ++ ("--name " ++ identity ++ " "
        ++ image)) := by
      rw [List.mem_singleton.mp h]
      simp [← String.toList_inj]
    rw [hline, Script.role_tool, Script.words_append_space (by decide) rfl]
    rfl
  | run command =>
    have hline : line = Script.tool ++ " " ++ ("run" ++ " " ++ (identity ++ " " ++ command)) := by
      rw [List.mem_singleton.mp h]
      simp [← String.toList_inj]
    rw [hline, Script.role_tool, Script.words_append_space (by decide) rfl]
    rfl
  | copy src dst =>
    rw [List.mem_singleton.mp h, Script.role, if_pos (by simp [Script.tool])]
    rfl
  | volume paths =>
    obtain ⟨path, _, rfl⟩ := List.mem_map.mp h
    exact Script.role_config (by decide) rfl _ _
  | env | user | workdir | expose | entrypoint | cmd | author | label =>
    rw [List.mem_singleton.mp h]
    exact Script.role_config (by decide) rfl _ _

/-- The first line of an instruction, and the only one but for volumes. -/
def scriptLine (identity : String) (i : Instruction) : String :=
  (i.script identity).headD ""

theorem script_of_not_isVolume {i : Instruction} (h : ¬i.IsVolume) (identity : String) :
    i.script identity = [i.scriptLine identity] := by
  have hsingle : i.Single := fun paths hp => absurd ⟨paths, hp⟩ h
  obtain ⟨line, hline⟩ := hsingle.exists_script_eq identity
  rw [scriptLine, hline, List.headD_cons]

theorem flatMap_script_of_not_isVolume {is : List Instruction} (h : ∀ i ∈ is, ¬i.IsVolume)
    (identity : String) : is.flatMap (script identity) = is.map (scriptLine identity) :=
  flatMap_eq_map fun i hi => script_of_not_isVolume (h i hi) identity

theorem role_scriptLine {i : Instruction} (h : ¬i.IsVolume) (identity : String) :
    Script.role (i.scriptLine identity) = .operation i.keyword :=
  role_of_mem_script (by rw [script_of_not_isVolume h identity]; exact List.mem_singleton_self _)

theorem not_isVolume_ofStep (s : Step) : ¬(ofStep s).IsVolume := by
  rintro ⟨_, h⟩
  cases s <;> cases h

theorem isVolume_of_keyword {i : Instruction} (h : i.keyword = "VOLUME") : i.IsVolume := by
  cases i with
  | volume paths => exact ⟨paths, rfl⟩
  | _ => simp [keyword] at h

end Instruction

/-! ### Repeated volumes -/

namespace Script

/-- Two neighbouring keywords belong to two instructions: only volumes take several lines. -/
def Apart (a b : String) : Prop :=
  ¬(a = "VOLUME" ∧ b = "VOLUME")

instance : DecidableRel Apart := fun a b =>
  inferInstanceAs (Decidable (¬(a = "VOLUME" ∧ b = "VOLUME")))

theorem destutter'_of_notMem {l : List String} (hl : "VOLUME" ∉ l) (a : String) :
    l.destutter' Apart a = a :: l := by
  induction l generalizing a with
  | nil => rfl
  | cons b l ih =>
    rw [List.mem_cons, not_or] at hl
    have hab : Apart a b := fun h => hl.1 h.2.symm
    rw [List.destutter'_cons_pos l hab, ih hl.2]

theorem destutter'_volumes {m : List String} (hm : "VOLUME" ∉ m) (n : Nat) :
    (List.replicate n "VOLUME" ++ m).destutter' Apart "VOLUME" = "VOLUME" :: m := by
  induction n with
  | zero => exact destutter'_of_notMem hm "VOLUME"
  | succ n ih =>
    have hsame : ¬Apart "VOLUME" "VOLUME" := fun h => h ⟨rfl, rfl⟩
    rw [List.replicate_succ, List.cons_append, List.destutter'_cons_neg _ hsame, ih]

theorem destutter'_append {l : List String} (hl : "VOLUME" ∉ l) {a : String} (ha : a ≠ "VOLUME")
    (m : List String) : (l ++ "VOLUME" :: m).destutter' Apart a
      = a :: l ++ m.destutter' Apart "VOLUME" := by
  induction l generalizing a with
  | nil =>
    have hav : Apart a "VOLUME" := fun h => ha h.1
    exact List.destutter'_cons_pos m hav
  | cons b l ih =>
    rw [List.mem_cons, not_or] at hl
    have hab : Apart a b := fun h => ha h.1
    rw [List.cons_append, List.destutter'_cons_pos _ hab, ih hl.2 (Ne.symm hl.1)]
    rfl

/-- **Repeated volumes become one**, between keywords that are none. -/
theorem destutter_volumes {l m : List String} {a : String} (ha : a ≠ "VOLUME")
    (hl : "VOLUME" ∉ l) (hm : "VOLUME" ∉ m) (n : Nat) :
    (a :: l ++ (List.replicate n "VOLUME" ++ m)).destutter Apart
      = a :: l ++ ((if n = 0 then [] else ["VOLUME"]) ++ m) := by
  rw [List.cons_append, List.destutter_cons']
  cases n with
  | zero => exact destutter'_of_notMem (List.mem_append.not.mpr (not_or.mpr ⟨hl, hm⟩)) a
  | succ n =>
    rw [List.replicate_succ, List.cons_append, destutter'_append hl ha, destutter'_volumes hm]
    rfl

end Script

/-! ### Scripts and plans -/

namespace Definition

/-- The instructions of a plan before its volumes, but for the first one. -/
theorem exists_beforeVolumes_eq (d : Definition) :
    ∃ is, d.beforeVolumes = .from (d.base.getD "") :: is :=
  ⟨_, rfl⟩

theorem volume_notMem_map_keyword {is : List Instruction} (h : ∀ i ∈ is, ¬i.IsVolume) :
    "VOLUME" ∉ is.map Instruction.keyword := by
  intro hmem
  obtain ⟨i, hi, hkeyword⟩ := List.mem_map.mp hmem
  exact h i hi (Instruction.isVolume_of_keyword hkeyword)

end Definition

namespace Spec

/-- **Where the lines of a script come from.** -/
theorem script_eq (s : Spec) (image : String) : s.script image
    = s.definition.beforeVolumes.map (Instruction.scriptLine s.identity)
      ++ (s.definition.volumes.map (fun path =>
          Script.config "--volume" (Script.apostrophes path) s.identity)
        ++ (s.definition.behindVolumes.map (Instruction.scriptLine s.identity)
          ++ [Script.commit s.identity image])) := by
  have hvolumes : (if s.definition.volumes.isEmpty then [] else
      [Instruction.volume s.definition.volumes]).flatMap (Instruction.script s.identity)
        = s.definition.volumes.map fun path =>
          Script.config "--volume" (Script.apostrophes path) s.identity := by
    cases s.definition.volumes with
    | nil => rfl
    | cons path paths => exact List.flatMap_singleton _ _
  rw [script, plan, Definition.plan_eq, List.flatMap_append, List.flatMap_append, hvolumes,
    Instruction.flatMap_script_of_not_isVolume Definition.not_isVolume_of_mem_beforeVolumes,
    Instruction.flatMap_script_of_not_isVolume Definition.not_isVolume_of_mem_behindVolumes,
    List.append_assoc, List.append_assoc]

/-- The script starts with the line of the base image and those of the steps. -/
theorem script_eq_cons (s : Spec) (image : String) : ∃ rest, s.script image
    = (Instruction.from (s.definition.base.getD "")).scriptLine s.identity
      :: (s.definition.steps.map fun step =>
          (Instruction.ofStep step).scriptLine s.identity) ++ rest := by
  rw [script_eq]
  simp only [Definition.beforeVolumes, List.map_append, List.map_cons, List.map_map,
    List.cons_append, List.append_assoc]
  exact ⟨_, rfl⟩

def scriptKeywords (s : Spec) : List String :=
  s.definition.beforeVolumes.map Instruction.keyword
    ++ (List.replicate s.definition.volumes.length "VOLUME"
      ++ s.definition.behindVolumes.map Instruction.keyword)

theorem map_role_script (s : Spec) (image : String) :
    (s.script image).map Script.role = s.scriptKeywords.map .operation ++ [.commit] := by
  have hlines : ∀ {is : List Instruction}, (∀ i ∈ is, ¬i.IsVolume) →
      (is.map (Instruction.scriptLine s.identity)).map Script.role
        = (is.map Instruction.keyword).map .operation := by
    intro is his
    rw [List.map_map, List.map_map]
    exact List.map_congr_left fun i hi => Instruction.role_scriptLine (his i hi) s.identity
  have hvolumes : (s.definition.volumes.map (fun path =>
      Script.config "--volume" (Script.apostrophes path) s.identity)).map Script.role
        = (List.replicate s.definition.volumes.length "VOLUME").map .operation := by
    rw [List.map_map, List.map_replicate, ← List.map_const']
    exact List.map_congr_left fun path _ => Script.role_config (by decide) rfl _ _
  rw [script_eq, scriptKeywords]
  simp only [List.map_append, hlines Definition.not_isVolume_of_mem_beforeVolumes, hvolumes,
    hlines Definition.not_isVolume_of_mem_behindVolumes, List.map_singleton, Script.role_commit,
    List.append_assoc]

/-- The keywords of a script without repeated volumes are those of the plan. -/
theorem destutter_scriptKeywords (s : Spec) :
    s.scriptKeywords.destutter Script.Apart = s.plan.map Instruction.keyword := by
  obtain ⟨is, his⟩ := s.definition.exists_beforeVolumes_eq
  have hbefore := Definition.volume_notMem_map_keyword
    (Definition.not_isVolume_of_mem_beforeVolumes (d := s.definition))
  have hbehind := Definition.volume_notMem_map_keyword
    (Definition.not_isVolume_of_mem_behindVolumes (d := s.definition))
  rw [his, List.map_cons, List.mem_cons, not_or] at hbefore
  rw [scriptKeywords, plan, Definition.plan_eq, his, List.map_cons,
    Script.destutter_volumes (Ne.symm hbefore.1) hbefore.2 hbehind, List.map_append, List.map_append,
    List.map_cons]
  cases s.definition.volumes <;> rfl

theorem length_script (s : Spec) (image : String) : (s.script image).length = s.plan.length + 1
    + if s.definition.volumes.isEmpty then 0 else s.definition.volumes.length - 1 := by
  rw [script_eq, plan, Definition.plan_eq]
  cases s.definition.volumes with
  | nil => simp; omega
  | cons path paths => simp; omega

/-- **A script does what the plan says, in its order.**  Its lines carry out the instructions of the
plan and then commit; only volumes take several lines.  The first line starts the container, those
of the steps follow one by one, and the commit comes last and nowhere else. -/
theorem script_follows_plan (s : Spec) (image : String) :
    (∃ keywords : List String,
      (s.script image).map Script.role = keywords.map .operation ++ [.commit] ∧
      keywords.destutter Script.Apart = s.plan.map Instruction.keyword) ∧
    (s.script image)[0]? = some ("buildah from --name " ++ s.identity ++ " "
      ++ s.definition.base.getD "") ∧
    (∀ i step, s.definition.steps[i]? = some step → s.plan[i + 1]? = some (.ofStep step) ∧
      ∃ line, (Instruction.ofStep step).script s.identity = [line] ∧
        (s.script image)[i + 1]? = some line) ∧
    (s.script image).getLast? = some (Script.commit s.identity image) ∧
    (∀ i, (s.script image)[i]?.map Script.role = some .commit ↔
      i + 1 = (s.script image).length) ∧
    (s.script image).length = s.plan.length + 1
      + if s.definition.volumes.isEmpty then 0 else s.definition.volumes.length - 1 := by
  obtain ⟨rest, hrest⟩ := s.script_eq_cons image
  refine ⟨⟨s.scriptKeywords, s.map_role_script image, s.destutter_scriptKeywords⟩, ?_, ?_, ?_, ?_,
    s.length_script image⟩
  · rw [hrest]
    rfl
  · intro i step hstep
    have hi : i < s.definition.steps.length := (List.getElem?_eq_some_iff.mp hstep).1
    refine ⟨?_, (Instruction.ofStep step).scriptLine s.identity,
      Instruction.script_of_not_isVolume (Instruction.not_isVolume_ofStep step) _, ?_⟩
    · rw [plan, Definition.plan, List.cons_append, List.getElem?_cons_succ,
        List.getElem?_append_left (by simpa using hi), List.getElem?_map, hstep]
      rfl
    · rw [hrest, List.cons_append, List.getElem?_cons_succ,
        List.getElem?_append_left (by simpa using hi), List.getElem?_map, hstep]
      rfl
  · rw [script, List.getLast?_concat]
  · intro i
    have hlength := congrArg List.length (s.map_role_script image)
    rw [List.length_map, List.length_append, List.length_map, List.length_singleton] at hlength
    rw [← List.getElem?_map, s.map_role_script image, hlength, Nat.add_right_cancel_iff]
    constructor
    · intro h
      rcases Nat.lt_trichotomy i s.scriptKeywords.length with hi | hi | hi
      · rw [List.getElem?_append_left (by simpa using hi), List.getElem?_map,
          List.getElem?_eq_getElem hi] at h
        cases h
      · exact hi
      · rw [List.getElem?_eq_none (by simp; omega)] at h
        cases h
    · rintro rfl
      rw [List.getElem?_append_right (by simp)]
      simp

end Spec

end ImageRecipe
