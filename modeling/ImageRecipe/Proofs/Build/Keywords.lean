import ImageRecipe.Proofs.Build.DockerfileLines
import ImageRecipe.Proofs.Build.SamePlan

/-!
# The lines of one keyword

Every line of a Dockerfile starts with a keyword, and every line of a script
does what some keyword says.  So the lines of one keyword can be picked out of
either, and they are the lines of the plan's instructions with that keyword:
none is lost, none comes from anything else.

For ports this settles everything (`Spec.exposed_in_outputs`), since a plan has
at most one instruction for them.
-/

namespace ImageRecipe

/-! ### Instructions -/

def Text.firstWord (line : String) : String :=
  .ofList (line.toList.takeWhile (· ≠ ' '))

namespace Instruction

theorem firstWord_line (i : Instruction) : Text.firstWord i.line = i.keyword := by
  have hkeyword : ∀ c ∈ i.keyword.toList, decide (c ≠ ' ') = true := by
    intro c hc
    refine decide_eq_true ?_
    rintro rfl
    exact i.space_notMem_keyword hc
  rw [Text.firstWord, toList_line, List.takeWhile_append_of_pos hkeyword]
  simp

theorem keyword_eq_expose_iff {i : Instruction} : i.keyword = "EXPOSE" ↔ i.rank = 2 := by
  cases i <;> simp [keyword, rank]

end Instruction

namespace Definition

/-- The port, unless there is none; port 0 counts as none. -/
def exposed (d : Definition) : List UInt16 :=
  (d.port.filter (· ≠ 0)).toList

/-- The port is all that a plan exposes. -/
theorem filter_expose_plan (d : Definition) :
    d.plan.filter (fun i => i.keyword = "EXPOSE") = d.exposed.map .expose := by
  simp only [Instruction.keyword_eq_expose_iff]
  rw [exposed, ← Option.toList_map]
  exact d.filter_rank_plan (r := 2) (by decide)

end Definition

/-! ### Lines -/

/-- Where what is made of an item is picked or not as the item is, picking may come first. -/
theorem filter_flatMap_of_forall {α β : Type} {f : α → List β} {p : α → Bool} {q : β → Bool}
    (h : ∀ a, ∀ b ∈ f a, q b = p a) (as : List α) :
    (as.flatMap f).filter q = (as.filter p).flatMap f := by
  induction as with
  | nil => rfl
  | cons a as ih =>
    rw [List.flatMap_cons, List.filter_append, ih, List.filter_cons]
    by_cases ha : p a
    · rw [if_pos ha, List.flatMap_cons, List.filter_eq_self.mpr fun b hb => (h a b hb).trans ha]
    · have hnone : (f a).filter q = [] :=
        List.filter_eq_nil_iff.mpr fun b hb => by rwa [h a b hb]
      rw [if_neg ha, hnone, List.nil_append]

namespace Spec

/-- **The lines of a Dockerfile with a keyword.**  Where a text holds a line feed there may be
more. -/
theorem filter_firstWord_dockerfile {s : Spec} (h : s.definition.lineFeeds = 0)
    (keyword : String) :
    (Text.lines s.dockerfile).filter (fun line => Text.firstWord line = keyword)
      = (s.plan.filter (fun i => i.keyword = keyword)).map Instruction.line := by
  rw [s.lines_dockerfile_eq_iff.mpr h, List.filter_map]
  simp only [Function.comp_def, Instruction.firstWord_line]

/-- **The lines of a script that do what a keyword says**, whatever the texts are. -/
theorem filter_role_script (s : Spec) (image keyword : String) :
    (s.script image).filter (fun line => Script.role line = .operation keyword)
      = (s.plan.filter (fun i => i.keyword = keyword)).flatMap (Instruction.script s.identity) := by
  have hcommit : [Script.commit s.identity image].filter
      (fun line => Script.role line = .operation keyword) = [] := by
    simp [Script.role_commit]
  rw [script, List.filter_append, hcommit, List.append_nil]
  refine filter_flatMap_of_forall (fun i line hline => ?_) s.plan
  rw [Instruction.role_of_mem_script hline]
  simp only [Script.Role.operation.injEq]

/-- **The outputs expose the port and nothing else**: the plan in one instruction, and the
Dockerfile and the script in one line each, where it stands in decimal. -/
theorem exposed_in_outputs (s : Spec) :
    s.plan.filter (fun i => i.keyword = "EXPOSE") = s.definition.exposed.map .expose ∧
    (s.definition.lineFeeds = 0 →
      (Text.lines s.dockerfile).filter (fun line => Text.firstWord line = "EXPOSE")
        = s.definition.exposed.map fun p => "EXPOSE " ++ .ofList (Number.decimal p.toNat)) ∧
    ∀ image, (s.script image).filter (fun line => Script.role line = .operation "EXPOSE")
      = s.definition.exposed.map fun p =>
          Script.config "--port" (.ofList (Number.decimal p.toNat)) s.identity := by
  have hplan := s.definition.filter_expose_plan
  refine ⟨hplan, fun h => ?_, fun image => ?_⟩
  · rw [filter_firstWord_dockerfile h, plan, hplan, List.map_map]
    rfl
  · rw [filter_role_script, plan, hplan, List.flatMap_map]
    exact flatMap_eq_map fun p _ => rfl

end Spec

end ImageRecipe
