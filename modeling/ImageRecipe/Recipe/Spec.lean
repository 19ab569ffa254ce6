import ImageRecipe.Failure
import ImageRecipe.Text.Blank
import ImageRecipe.Recipe.Definition

/-!
# Recipes under a name

A `Spec` is a definition together with the name of the working container in
which it is built.  It is filled by changes: `Change` lists them, and
`Spec.edit` is the one place that says what each does.  A definition that
comes from a file enters through `Spec.ofDefinition`, which holds it to the
same rules: environment entries are trimmed, and files are copied to absolute
paths only.
-/

namespace ImageRecipe

structure Spec where
  /-- The name of the working container. -/
  identity : String
  definition : Definition := {}
  deriving DecidableEq, Repr

/-- An argument of a command: one text, or a flat list of texts put in its place. -/
inductive Argument where
  | one (text : String)
  | many (texts : List String)
  deriving DecidableEq, Repr

def Argument.texts : Argument → List String
  | .one text => [text]
  | .many texts => texts

/-- One call that fills a recipe. -/
inductive Change where
  | base (image : String)
  | run (cmd : String)
  | env (name value : String)
  | copy (src dest : String)
  | user (id : String)
  | workdir (dir : String)
  | volume (path : String)
  | author (name : String)
  | expose (port : UInt16)
  | command (argv : List Argument)
  | entrypoint (argv : List Argument)
  | labels (labels : Labels)
  deriving DecidableEq, Repr

def absolutePath (path : String) : Bool :=
  path.toList.head? == some '/'

namespace Step

/-- The form in which a recipe keeps a step: environment entries lose the blanks around them, and
a copy to a relative path is refused. -/
def normalize : Step → Except Failure Step
  | .env name value => .ok (.env (Text.trim name) (Text.trim value))
  | .copy src dest =>
    if absolutePath dest then .ok (.copy src dest) else .error (.relativeDestination dest)
  | s => .ok s

end Step

namespace Definition

def addStep (d : Definition) (s : Step) : Definition :=
  { d with steps := d.steps ++ [s] }

end Definition

namespace Spec

def empty (identity : String) : Spec :=
  { identity }

/-- A call that works on a definition.  What it has done when it fails stays done. -/
abbrev Call := ExceptT Failure (StateM Definition)

def edit : Change → Call Unit
  | .base image => modify fun d => { d with base := some image }
  | .volume path => modify fun d => { d with volumes := d.volumes ++ [path] }
  | .author name => modify fun d => { d with author := some name }
  | .expose port => modify fun d => { d with port := some port }
  | .command argv => modify fun d => { d with command := some (argv.flatMap Argument.texts) }
  | .entrypoint argv => modify fun d => { d with entrypoint := some (argv.flatMap Argument.texts) }
  | .labels labels => modify fun d => { d with labels := some labels }
  | .run cmd => modify (·.addStep (.run cmd))
  | .env name value => modify (·.addStep (.env (Text.trim name) (Text.trim value)))
  | .copy src dest => do
    unless absolutePath dest do throw (.relativeDestination dest)
    modify (·.addStep (.copy src dest))
  | .user id => modify (·.addStep (.user id))
  | .workdir dir => modify (·.addStep (.workdir dir))

/-- The answer to a change, and the recipe that is left. -/
def perform (s : Spec) (c : Change) : Except Failure Unit × Spec :=
  let (answer, definition) := ((edit c).run.run s.definition).run
  (answer, { s with definition })

/-- The recipe after a change, or why the change was refused. -/
def apply (s : Spec) (c : Change) : Except Failure Spec :=
  (s.perform c).1.map fun _ => (s.perform c).2

/-- The recipe after a change, whether or not that was refused. -/
def applyOrKeep (s : Spec) (c : Change) : Spec :=
  (s.perform c).2

/-- The recipe after a sequence of changes, refused ones among them. -/
def applyAll (s : Spec) (cs : List Change) : Spec :=
  cs.foldl applyOrKeep s

/-- The recipe of a definition: its steps in the form in which a recipe keeps them, or the first
refusal. -/
def ofDefinition (d : Definition) (identity : String) : Except Failure Spec := do
  let steps ← d.steps.mapM Step.normalize
  return { identity, definition := { d with steps } }

/-- A copy of a recipe under a name of its own. -/
def clone (s : Spec) (fresh : String) : Spec :=
  { s with identity := fresh }

end Spec

end ImageRecipe
