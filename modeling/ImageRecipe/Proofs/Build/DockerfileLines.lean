import ImageRecipe.Proofs.Build.Faithful
import Mathlib.Algebra.GroupWithZero.Nat

/-!
# The lines of a Dockerfile

A Dockerfile has one line for each instruction of the plan, as long as the base
image and the steps hold no line feed; each line feed in them adds one line.
Nothing else does: what follows the steps is numbers and JSON, in which no line
feed stands, whatever the texts are.

`Text.lines` cuts a text at its line feeds.  A joined text is cut into what its
parts are cut into (`lines_intercalate`), so everything comes down to the line
feeds of one instruction.
-/

namespace ImageRecipe

/-! ### Cutting at line feeds -/

namespace Text

def lineFeeds (s : String) : Nat :=
  s.toList.count '\n'

/-- The pieces of a text between its line feeds. -/
def lines (s : String) : List String :=
  (s.toList.splitOn '\n').map .ofList

theorem lineFeeds_append (s t : String) : lineFeeds (s ++ t) = lineFeeds s + lineFeeds t := by
  rw [lineFeeds, String.toList_append, List.count_append]
  rfl

theorem lineFeeds_eq_zero {s : String} : lineFeeds s = 0 ↔ '\n' ∉ s.toList :=
  List.count_eq_zero

theorem length_splitOn (c : Char) (s : List Char) : (s.splitOn c).length = s.count c + 1 := by
  rw [List.splitOn_eq_splitOnP]
  induction s with
  | nil => rfl
  | cons d s ih =>
    rw [List.splitOnP_cons_eq_if_modifyHead, List.count_cons]
    split
    · rw [List.length_cons, ih]
    · rw [List.length_modifyHead, ih, Nat.add_zero]

theorem length_lines (s : String) : (lines s).length = lineFeeds s + 1 := by
  rw [lines, List.length_map, length_splitOn, lineFeeds]

theorem lines_of_lineFeeds_eq_zero {s : String} (h : lineFeeds s = 0) : lines s = [s] := by
  have hcut : s.toList.splitOn '\n' = [s.toList] := by
    rw [List.splitOn_eq_splitOnP]
    refine List.splitOnP_eq_singleton fun c hc => ?_
    rw [beq_eq_false_iff_ne]
    rintro rfl
    exact lineFeeds_eq_zero.mp h hc
  rw [lines, hcut, List.map_singleton, String.ofList_toList]

theorem splitOn_intercalate (c : Char) (l : List Char) (ls : List (List Char)) :
    ([c].intercalate (l :: ls)).splitOn c = (l :: ls).flatMap fun m => m.splitOn c := by
  induction ls generalizing l with
  | nil => simp
  | cons m ms ih =>
    rw [List.intercalate_cons_cons, List.append_assoc, List.singleton_append,
      List.splitOn_append_cons_of_beq _ _ BEq.rfl, ih]
    rfl

/-- **A joined text is cut into what its parts are cut into.** -/
theorem lines_intercalate {ls : List String} (h : ls ≠ []) :
    lines ("\n".intercalate ls) = ls.flatMap lines := by
  obtain ⟨l, ls, rfl⟩ := List.exists_cons_of_ne_nil h
  have hcut : ("\n".intercalate (l :: ls)).toList.splitOn '\n'
      = (l :: ls).flatMap fun m => m.toList.splitOn '\n' := by
    rw [String.toList_intercalate]
    exact (splitOn_intercalate '\n' l.toList (ls.map String.toList)).trans
      (List.flatMap_map String.toList (List.splitOn '\n') (l :: ls))
  rw [lines, hcut, List.map_flatMap]
  rfl

end Text

/-! ### Line feeds of instructions -/

def Step.lineFeeds (s : Step) : Nat :=
  (s.fields.map Text.lineFeeds).sum

namespace Definition

/-- The line feeds in the base image and in the texts of the steps. -/
def lineFeeds (d : Definition) : Nat :=
  Text.lineFeeds (d.base.getD "") + (d.steps.map Step.lineFeeds).sum

def baseAndSteps (d : Definition) : Definition :=
  { base := d.base, steps := d.steps }

end Definition

namespace Instruction

theorem lineFeeds_line (i : Instruction) : Text.lineFeeds i.line = Text.lineFeeds i.operand := by
  have hkeyword : Text.lineFeeds i.keyword = 0 :=
    Text.lineFeeds_eq_zero.mpr i.newline_notMem_keyword
  rw [line, Text.lineFeeds_append, Text.lineFeeds_append, hkeyword]
  exact Nat.zero_add _

/-- The line of a step has the line feeds of its texts. -/
theorem lineFeeds_ofStep (s : Step) : Text.lineFeeds (ofStep s).line = s.lineFeeds := by
  have hequals : Text.lineFeeds "=" = 0 := rfl
  have hspace : Text.lineFeeds " " = 0 := rfl
  rw [lineFeeds_line]
  cases s <;> simp [ofStep, operand, Step.lineFeeds, Step.fields, Text.lineFeeds_append, hequals,
    hspace]

/-- What follows the steps has no line feeds, for neither numbers nor JSON have any. -/
theorem lineFeeds_of_mem_trailing {d : Definition} {i : Instruction} (h : i ∈ d.trailing) :
    Text.lineFeeds i.line = 0 := by
  -- the trailing instructions are those of a definition without base image and steps
  have htidy : ({ d with base := none, steps := [] } : Definition).Tidy :=
    ⟨fun _ h => (Option.not_mem_none _ h).elim, fun _ h => absurd h List.not_mem_nil⟩
  exact Text.lineFeeds_eq_zero.mpr (htidy.plan i (List.mem_cons_of_mem _ h)).newline_notMem_line

theorem lines_line_of_mem_trailing {d : Definition} {i : Instruction} (h : i ∈ d.trailing) :
    Text.lines i.line = [i.line] :=
  Text.lines_of_lineFeeds_eq_zero (lineFeeds_of_mem_trailing h)

end Instruction

/-! ### Lines of a Dockerfile -/

theorem Definition.sum_lineFeeds_plan (d : Definition) :
    (d.plan.map fun i => Text.lineFeeds i.line).sum = d.lineFeeds := by
  have hfrom : Text.lineFeeds (Instruction.from (d.base.getD "")).line
      = Text.lineFeeds (d.base.getD "") := Instruction.lineFeeds_line _
  have hsteps : (d.steps.map Instruction.ofStep).map (fun i => Text.lineFeeds i.line)
      = d.steps.map Step.lineFeeds := by
    rw [List.map_map]
    exact List.map_congr_left fun s _ => Instruction.lineFeeds_ofStep s
  have htrailing : (d.trailing.map fun i => Text.lineFeeds i.line).sum = 0 := by
    rw [List.sum_eq_zero_iff_forall_eq_nat]
    intro n hn
    obtain ⟨i, hi, rfl⟩ := List.mem_map.mp hn
    exact Instruction.lineFeeds_of_mem_trailing hi
  rw [plan, List.cons_append, List.map_cons, List.map_append, List.sum_cons, List.sum_append,
    hfrom, hsteps, htrailing, Nat.add_zero, lineFeeds]

namespace Spec

theorem lines_dockerfile (s : Spec) :
    Text.lines s.dockerfile = s.plan.flatMap fun i => Text.lines i.line := by
  rw [dockerfile, Text.lines_intercalate (by simp [plan, Definition.plan]), List.flatMap_map]

theorem length_lines_dockerfile (s : Spec) :
    (Text.lines s.dockerfile).length = s.plan.length + s.definition.lineFeeds := by
  have hsum : ∀ is : List Instruction, (is.flatMap fun i => Text.lines i.line).length
      = is.length + (is.map fun i => Text.lineFeeds i.line).sum := by
    intro is
    induction is with
    | nil => rfl
    | cons i is ih =>
      rw [List.flatMap_cons, List.length_append, ih, Text.length_lines, List.length_cons,
        List.map_cons, List.sum_cons]
      omega
  rw [lines_dockerfile, hsum, plan, Definition.sum_lineFeeds_plan]

/-- The lines are the instructions, one by one, if and only if no text breaks a line. -/
theorem lines_dockerfile_eq_iff (s : Spec) :
    Text.lines s.dockerfile = s.plan.map Instruction.line ↔ s.definition.lineFeeds = 0 := by
  constructor
  · intro h
    have hlength := s.length_lines_dockerfile
    rw [h, List.length_map] at hlength
    omega
  · intro h
    have hone : ∀ i ∈ s.plan, Text.lines i.line = [i.line] := by
      intro i hi
      rw [← Definition.sum_lineFeeds_plan, List.sum_eq_zero_iff_forall_eq_nat] at h
      exact Text.lines_of_lineFeeds_eq_zero (h _ (List.mem_map_of_mem hi))
    rw [lines_dockerfile, flatMap_eq_map hone]

/-- The fields behind the steps add their lines at the end, and touch none before. -/
theorem lines_dockerfile_eq_append (s : Spec) : Text.lines s.dockerfile
    = Text.lines (dockerfile ⟨s.identity, s.definition.baseAndSteps⟩)
      ++ s.definition.trailing.map Instruction.line := by
  have htrailing : (s.definition.trailing.flatMap fun i => Text.lines i.line)
      = s.definition.trailing.map Instruction.line :=
    flatMap_eq_map fun i hi => Instruction.lines_line_of_mem_trailing hi
  have hnone : s.definition.baseAndSteps.trailing = [] := rfl
  rw [lines_dockerfile, lines_dockerfile, plan, plan, Definition.plan, Definition.plan, hnone,
    List.append_nil, List.flatMap_append, htrailing]
  rfl

/-- **How a Dockerfile falls into lines.**  There is one for each instruction and one more for each
line feed in the base image and the steps.  So the lines are the instructions, each behind its
keyword, if and only if there is no such line feed; and whatever the other fields hold, they stand
on lines of their own behind the lines of the base image and the steps. -/
theorem dockerfile_line_structure (s : Spec) :
    (Text.lines s.dockerfile).length = s.plan.length + s.definition.lineFeeds ∧
    ((Text.lines s.dockerfile = s.plan.map Instruction.line ∧
        ∀ i ∈ s.plan, (i.keyword ++ " ").toList <+: i.line.toList) ↔
      s.definition.lineFeeds = 0) ∧
    Text.lines s.dockerfile = Text.lines (dockerfile ⟨s.identity, s.definition.baseAndSteps⟩)
      ++ s.definition.trailing.map Instruction.line := by
  have hkeyword : ∀ i ∈ s.plan, (i.keyword ++ " ").toList <+: i.line.toList := by
    intro i _
    rw [Instruction.line, String.toList_append (s := i.keyword ++ " ")]
    exact List.prefix_append _ _
  refine ⟨s.length_lines_dockerfile, ?_, s.lines_dockerfile_eq_append⟩
  rw [← s.lines_dockerfile_eq_iff]
  exact and_iff_left hkeyword

example : Text.lines (dockerfile ⟨"c0",
    { base := some "alpine", steps := [.run "a\nb"], author := some "\n" }⟩)
      = ["FROM alpine", "RUN a", "b", "LABEL author=\"\\n\""] := rfl

end Spec

end ImageRecipe
