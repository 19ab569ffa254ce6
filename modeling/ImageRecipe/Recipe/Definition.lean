import ImageRecipe.Recipe.Step
import ImageRecipe.Recipe.Labels

/-!
# Image definitions

The data half of a recipe: everything but the name of the working container.
Each field may be left out of a record, and then has the value that it has in
`{}`.
-/

namespace ImageRecipe

structure Definition where
  /-- The image to start from. -/
  base : Option String := none
  steps : List Step := []
  port : Option UInt16 := none
  entrypoint : Option (List String) := none
  /-- The command that the image runs when none is given. -/
  command : Option (List String) := none
  author : Option String := none
  labels : Option Labels := none
  /-- Paths to mount volumes at. -/
  volumes : List String := []
  deriving DecidableEq, Repr

namespace Definition

/-! ### The names of the fields, in order -/

def baseKey : String := "from"

def stepsKey : String := "steps"

def portKey : String := "port"

def entrypointKey : String := "entrypoint"

def commandKey : String := "cmd"

def authorKey : String := "author"

def labelsKey : String := "labels"

def volumesKey : String := "volumes"

/-! ### Definitions as records -/

inductive Field where
  | base (v : Option String)
  | steps (v : List Step)
  | port (v : Option UInt16)
  | entrypoint (v : Option (List String))
  | command (v : Option (List String))
  | author (v : Option String)
  | labels (v : Option Labels)
  | volumes (v : List String)
  deriving DecidableEq, Repr

def set (d : Definition) : Field → Definition
  | .base v => { d with base := v }
  | .steps v => { d with steps := v }
  | .port v => { d with port := v }
  | .entrypoint v => { d with entrypoint := v }
  | .command v => { d with command := v }
  | .author v => { d with author := v }
  | .labels v => { d with labels := v }
  | .volumes v => { d with volumes := v }

/-- The definition with the given fields; the others are empty. -/
def ofFields (fs : List Field) : Definition :=
  fs.foldl set {}

def toValue (d : Definition) : Value :=
  .record [(baseKey, .optional .text d.base), (stepsKey, .list (d.steps.map Step.toValue)),
    (portKey, .optional (fun p => .number p.toNat) d.port),
    (entrypointKey, .optional .texts d.entrypoint), (commandKey, .optional .texts d.command),
    (authorKey, .optional .text d.author), (labelsKey, .optional Labels.toValue d.labels),
    (volumesKey, .texts d.volumes)]

end Definition

end ImageRecipe
