import ImageRecipe.Build.Settings
import ImageRecipe.Decode.Misread

/-!
# Names that stand for one of a few things

The kind of a step and the policy of a run are told by a name.
-/

namespace ImageRecipe.Decode

def named {α : Type} (find : String → Option α) (known : List String) (name : String) :
    Except Misread α :=
  match find name with
  | some x => .ok x
  | none => .error (.misfits (.unknownVariant name known))

def stepKind : String → Except Misread StepKind :=
  named StepKind.ofName? (StepKind.all.map StepKind.name)

/-- The policy that a text names; here the letters' case counts, and so do blanks. -/
def policy : String → Except Misread Policy :=
  named Policy.ofName? (Policy.all.map Policy.name)

end ImageRecipe.Decode
