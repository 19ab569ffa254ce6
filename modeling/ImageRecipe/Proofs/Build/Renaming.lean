import ImageRecipe.Build.Dockerfile
import ImageRecipe.Build.Script
import ImageRecipe.Proofs.Recipe.Loading

/-!
# Recipes under another name

The name of a recipe says in which container its script works, and nothing else
depends on it.  Plans and Dockerfiles do not know it.  A script line is a
`Template`, a text with one gap, and the name stands in the gap: which template
it is depends on the definition, the image and the place of the line, never on
the name, not even where a text of the recipe looks like the name.

* `Instruction.script_eq_map_fill`: the lines of an instruction are its templates,
  filled in.
* `Spec.script_eq_map_fill`: so are the lines of a script.
-/

namespace ImageRecipe

/-! ### Lines with a gap -/

/-- A line with a gap for the name of the container. -/
structure Template where
  front : String
  back : String
  deriving DecidableEq, Repr

namespace Template

def fill (identity : String) (t : Template) : String :=
  t.front ++ identity ++ t.back

def config (option value : String) : Template :=
  ⟨Script.tool ++ " config " ++ option ++ " " ++ value ++ " ", ""⟩

def commit (image : String) : Template :=
  ⟨Script.tool ++ " commit ", " " ++ image⟩

theorem infix_fill (identity : String) (t : Template) :
    identity.toList <:+: (t.fill identity).toList := by
  refine ⟨t.front.toList, t.back.toList, ?_⟩
  rw [fill, String.toList_append, String.toList_append]

theorem fill_config (option value identity : String) :
    (config option value).fill identity = Script.config option value identity := by
  rw [fill, config, Script.config, String.append_empty]

theorem fill_commit (image identity : String) :
    (commit image).fill identity = Script.commit identity image := by
  rw [fill, commit, Script.commit, ← String.append_assoc]

end Template

/-! ### The templates of a script -/

namespace Instruction

open Script in
def templates : Instruction → List Template
  | .from image => [⟨tool ++ " from --name ", " " ++ image⟩]
  | .run command => [⟨tool ++ " run ", " " ++ command⟩]
  | .env key value => [.config "--env" (key ++ "=" ++ value)]
  | .user id => [.config "--user" id]
  | .copy src dst =>
    [⟨"export MNT=$(" ++ tool ++ " mount ", ") && cp -r " ++ src ++ " $MNT/" ++ dst⟩]
  | .workdir path => [.config "--workingdir" path]
  | .expose port => [.config "--port" (String.ofList (Number.decimal port.toNat))]
  | .entrypoint exec => [.config "--entrypoint" (apostrophes (Json.stringArray exec))]
  | .volume paths => paths.map fun path => .config "--volume" (apostrophes path)
  | .cmd exec => [.config "--cmd" (apostrophes (Json.stringArray exec))]
  | .author name => [.config "--author" (Json.string name)]
  | .label key value => [.config "--label" (key ++ "=" ++ Json.string value)]

/-- **The name stands in every line of an instruction, in a place that does not depend on it.** -/
theorem script_eq_map_fill (identity : String) (i : Instruction) :
    i.script identity = i.templates.map (Template.fill identity) := by
  cases i with
  | «from» image => simp [script, templates, Template.fill, String.append_assoc]
  | run command => simp [script, templates, Template.fill, String.append_assoc]
  | copy src dst => simp [script, templates, Template.fill, String.append_assoc]
  | volume paths =>
    rw [script, templates, List.map_map]
    apply List.map_congr_left
    intro path _
    exact (Template.fill_config _ _ identity).symm
  | env | user | workdir | expose | entrypoint | cmd | author | label =>
    exact congrArg (fun line => [line]) (Template.fill_config _ _ identity).symm

end Instruction

def Definition.templates (d : Definition) (image : String) : List Template :=
  d.plan.flatMap Instruction.templates ++ [.commit image]

namespace Spec

/-- **A script is the templates of its definition, filled with the name of the recipe.** -/
theorem script_eq_map_fill (s : Spec) (image : String) :
    s.script image = (s.definition.templates image).map (Template.fill s.identity) := by
  rw [script, Definition.templates, List.map_append, List.map_flatMap, List.map_singleton,
    Template.fill_commit]
  congr 1
  apply List.flatMap_congr
  intro i _
  exact i.script_eq_map_fill s.identity

/-! ### What a name changes -/

/-- A definition is refused under every name or loaded under every name, and then into the same
definition. -/
theorem ofDefinition_uniform (d : Definition) : (∃ e, ∀ a, ofDefinition d a = .error e) ∨
    ∃ loaded, ∀ a, ofDefinition d a = .ok ⟨a, loaded⟩ := by
  cases hsteps : d.steps.mapM Step.normalize with
  | error e =>
    refine .inl ⟨e, fun a => ?_⟩
    rw [ofDefinition_eq, hsteps]
    rfl
  | ok steps =>
    refine .inr ⟨{ d with steps }, fun a => ?_⟩
    rw [ofDefinition_eq, hsteps]
    rfl

/-- **A name names the container and does nothing else.**  Whatever names a definition is loaded
under, it is refused alike, or the recipes have one plan and one Dockerfile, and their scripts are
the same lines but for the name in the gap of each.  So every line names the container, and a copy
of a recipe has the same Dockerfile, and the same script in another container. -/
theorem identity_names_container_only (image : String) :
    (∀ d : Definition, (∃ e, ∀ a, ofDefinition d a = .error e) ∨
      ∃ (plan : List Instruction) (text : String) (lines : List Template), ∀ a, ∃ s,
        ofDefinition d a = .ok s ∧ s.identity = a ∧ s.plan = plan ∧ s.dockerfile = text ∧
          s.script image = lines.map (Template.fill a)) ∧
    ∀ s : Spec, (∀ line ∈ s.script image, s.identity.toList <:+: line.toList) ∧
      ∃ lines : List Template, s.script image = lines.map (Template.fill s.identity) ∧
        ∀ fresh, (s.clone fresh).plan = s.plan ∧ (s.clone fresh).dockerfile = s.dockerfile ∧
          (s.clone fresh).script image = lines.map (Template.fill fresh) := by
  refine ⟨fun d => ?_, fun s => ⟨?_, ?_⟩⟩
  · rcases ofDefinition_uniform d with hrefused | ⟨loaded, hloaded⟩
    · exact .inl hrefused
    · refine .inr ⟨loaded.plan, dockerfile ⟨"", loaded⟩, loaded.templates image, fun a => ?_⟩
      exact ⟨⟨a, loaded⟩, hloaded a, rfl, rfl, rfl, script_eq_map_fill ⟨a, loaded⟩ image⟩
  · intro line hline
    rw [script_eq_map_fill] at hline
    obtain ⟨t, _, rfl⟩ := List.mem_map.mp hline
    exact t.infix_fill s.identity
  · refine ⟨s.definition.templates image, s.script_eq_map_fill image, fun fresh => ?_⟩
    exact ⟨rfl, rfl, (s.clone fresh).script_eq_map_fill image⟩

end Spec

end ImageRecipe
