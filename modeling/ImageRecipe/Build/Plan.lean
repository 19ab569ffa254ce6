import ImageRecipe.Recipe.Spec

/-!
# Plans

What a recipe asks for, as a list of instructions that knows no backend: the
image to start from, the steps in order, and then at most six kinds of
trailing instructions in a fixed order.  `Dockerfile` and `Script` are two
ways of writing a plan down, so they agree on what is done and in which order.
-/

namespace ImageRecipe

inductive Instruction where
  /-- The image to start from; empty when the recipe names none. -/
  | «from» (image : String)
  | run (command : String)
  | env (key value : String)
  | user (id : String)
  | copy (src dst : String)
  | workdir (path : String)
  | expose (port : UInt16)
  | entrypoint (exec : List String)
  | volume (paths : List String)
  | cmd (exec : List String)
  | author (name : String)
  | label (key value : String)
  deriving DecidableEq, Repr

namespace Instruction

def keyword : Instruction → String
  | .from _ => "FROM"
  | .run _ => "RUN"
  | .env _ _ => "ENV"
  | .user _ => "USER"
  | .copy _ _ => "COPY"
  | .workdir _ => "WORKDIR"
  | .expose _ => "EXPOSE"
  | .entrypoint _ => "ENTRYPOINT"
  | .volume _ => "VOLUME"
  | .cmd _ => "CMD"
  | .author _ => "LABEL"
  | .label _ _ => "LABEL"

def isStep : Instruction → Bool
  | .run _ | .env _ _ | .user _ | .copy _ _ | .workdir _ => true
  | _ => false

def ofStep : Step → Instruction
  | .run c => .run c
  | .env n v => .env n v
  | .copy s d => .copy s d
  | .user u => .user u
  | .workdir d => .workdir d

theorem isStep_ofStep (s : Step) : (ofStep s).isStep = true := by
  cases s <;> rfl

end Instruction

namespace Definition

/-- The instructions that follow the steps.  Port 0 counts as no port. -/
def trailing (d : Definition) : List Instruction :=
  ((d.port.filter (· ≠ 0)).map .expose).toList
    ++ (d.entrypoint.map .entrypoint).toList
    ++ (if d.volumes.isEmpty then [] else [.volume d.volumes])
    ++ (d.command.map .cmd).toList
    ++ (d.author.map .author).toList
    ++ ((d.labels.map Labels.entries).getD []).map fun e => .label e.1 e.2

def plan (d : Definition) : List Instruction :=
  .from (d.base.getD "") :: d.steps.map .ofStep ++ d.trailing

end Definition

/-- What a recipe asks for; its name plays no part. -/
def Spec.plan (s : Spec) : List Instruction :=
  s.definition.plan

end ImageRecipe
