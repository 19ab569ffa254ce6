import ImageRecipe.Build.Plan
import ImageRecipe.Json.Printer

/-!
# Scripts

A plan as command lines that carry it out in a working container, and one more
line that commits the container as an image.  Every line names the container.
Values stand in the lines as they are: nothing is quoted for the shell.
-/

namespace ImageRecipe

namespace Script

def tool : String := "buildah"

def config (option value identity : String) : String :=
  tool ++ " config " ++ option ++ " " ++ value ++ " " ++ identity

def apostrophes (text : String) : String :=
  "'" ++ text ++ "'"

def commit (identity image : String) : String :=
  tool ++ " commit " ++ identity ++ " " ++ image

end Script

open Script in
/-- The lines that carry out an instruction: one for each volume, and one for everything else. -/
def Instruction.script (identity : String) : Instruction → List String
  | .from image => [tool ++ " from --name " ++ identity ++ " " ++ image]
  | .run command => [tool ++ " run " ++ identity ++ " " ++ command]
  | .env key value => [config "--env" (key ++ "=" ++ value) identity]
  | .user id => [config "--user" id identity]
  | .copy src dst =>
    ["export MNT=$(" ++ tool ++ " mount " ++ identity ++ ") && cp -r " ++ src ++ " $MNT/" ++ dst]
  | .workdir path => [config "--workingdir" path identity]
  | .expose port => [config "--port" (String.ofList (Number.decimal port.toNat)) identity]
  | .entrypoint exec => [config "--entrypoint" (apostrophes (Json.stringArray exec)) identity]
  | .volume paths => paths.map fun path => config "--volume" (apostrophes path) identity
  | .cmd exec => [config "--cmd" (apostrophes (Json.stringArray exec)) identity]
  | .author name => [config "--author" (Json.string name) identity]
  | .label key value => [config "--label" (key ++ "=" ++ Json.string value) identity]

def Spec.script (s : Spec) (image : String) : List String :=
  s.plan.flatMap (Instruction.script s.identity) ++ [Script.commit s.identity image]

end ImageRecipe
