import ImageRecipe.Value

/-!
# Build steps

One operation of the ordered part of a recipe.  `Step.ofFields?` and
`Step.fields` say which texts a step of each kind is made of, in order.
-/

namespace ImageRecipe

inductive Step where
  /-- Run a shell command inside the image. -/
  | run (cmd : String)
  /-- Set an environment variable. -/
  | env (name value : String)
  /-- Copy a file or a tree into the image. -/
  | copy (src dest : String)
  /-- Switch to a user, with or without a group. -/
  | user (id : String)
  /-- Switch to a directory. -/
  | workdir (dir : String)
  deriving DecidableEq, Repr

inductive StepKind where
  | run
  | env
  | copy
  | user
  | workdir
  deriving DecidableEq, Repr

namespace StepKind

/-- Every kind, in the order in which messages list them. -/
def all : List StepKind :=
  [.run, .env, .copy, .user, .workdir]

def name : StepKind → String
  | .run => "run"
  | .env => "env"
  | .copy => "copy"
  | .user => "user"
  | .workdir => "workdir"

/-- The kind as messages call the shape of its step. -/
def title : StepKind → String
  | .run => "Run"
  | .env => "Env"
  | .copy => "Copy"
  | .user => "User"
  | .workdir => "WorkDir"

def ofName? (s : String) : Option StepKind :=
  all.find? fun k => k.name == s

def fieldNames : StepKind → List String
  | .run => ["cmd"]
  | .env => ["name", "value"]
  | .copy => ["src", "dest"]
  | .user => ["id"]
  | .workdir => ["dir"]

end StepKind

namespace Step

def kind : Step → StepKind
  | .run _ => .run
  | .env _ _ => .env
  | .copy _ _ => .copy
  | .user _ => .user
  | .workdir _ => .workdir

/-- The texts of a step, in the order of `StepKind.fieldNames`. -/
def fields : Step → List String
  | .run cmd => [cmd]
  | .env name value => [name, value]
  | .copy src dest => [src, dest]
  | .user id => [id]
  | .workdir dir => [dir]

/-- The step of a kind with the given texts; `none` when their number is wrong. -/
def ofFields? : StepKind → List String → Option Step
  | .run, [cmd] => some (.run cmd)
  | .env, [name, value] => some (.env name value)
  | .copy, [src, dest] => some (.copy src dest)
  | .user, [id] => some (.user id)
  | .workdir, [dir] => some (.workdir dir)
  | _, _ => none

theorem ofFields?_fields (s : Step) : ofFields? s.kind s.fields = some s := by
  cases s <;> rfl

theorem length_fields (s : Step) : s.fields.length = s.kind.fieldNames.length := by
  cases s <;> rfl

/-- The field that names a step's kind in a record. -/
def kindField : String := "type"

def toValue (s : Step) : Value :=
  .record ((kindField, .text s.kind.name) :: s.kind.fieldNames.zip (s.fields.map .text))

end Step

end ImageRecipe
