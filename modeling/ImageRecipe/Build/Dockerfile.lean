import ImageRecipe.Build.Plan
import ImageRecipe.Json.Printer

/-!
# Dockerfiles

A plan as Dockerfile text: one line for each instruction, which starts with
the keyword.  Lists and the texts of labels are written as JSON, everything
else stands as it is.
-/

namespace ImageRecipe

/-- What follows the keyword and a blank. -/
def Instruction.operand : Instruction → String
  | .from image => image
  | .run command => command
  | .env key value => key ++ "=" ++ value
  | .user id => id
  | .copy src dst => src ++ " " ++ dst
  | .workdir path => path
  | .expose port => String.ofList (Number.decimal port.toNat)
  | .entrypoint exec => Json.stringArray exec
  | .volume paths => Json.stringArray paths
  | .cmd exec => Json.stringArray exec
  | .author name => "author=" ++ Json.string name
  | .label key value => key ++ "=" ++ Json.string value

def Instruction.line (i : Instruction) : String :=
  i.keyword ++ " " ++ i.operand

/-- A recipe as a Dockerfile, without a line break at its end. -/
def Spec.dockerfile (s : Spec) : String :=
  "\n".intercalate (s.plan.map Instruction.line)

end ImageRecipe
