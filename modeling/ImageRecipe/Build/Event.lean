import ImageRecipe.Number.Digits

/-!
# Events

What planning and running report while they go: one constructor for each kind
of event.  `level`, `message` and `fields` are how an event is shown.
-/

namespace ImageRecipe

inductive Level where
  | trace
  | debug
  | info
  | warn
  | error
  deriving DecidableEq, Repr

inductive Detail where
  | number (n : Int)
  | text (s : String)
  deriving DecidableEq, Repr

inductive Event where
  /-- A step found its place in a plan. -/
  | plannedStep (index : Nat) (kind : String)
  /-- A plan is complete. -/
  | plannedBuild (identity : String) (instructions steps : Nat)
  /-- A copy to a relative path was refused. -/
  | rejectedCopy (identity dest : String)
  /-- A line is about to run, the first being number 1. -/
  | runningStep (quiet : Bool) (step total : Nat) (command : String)
  /-- A line ended with an exit code other than zero. -/
  | failedStep (step : Nat) (exitCode : Int) (command : String)
  /-- The lines after a failed one will not run. -/
  | aborted (step skipped : Nat)
  deriving DecidableEq, Repr

namespace Level

def name : Level → String
  | .trace => "trace"
  | .debug => "debug"
  | .info => "info"
  | .warn => "warn"
  | .error => "error"

end Level

namespace Event

def level : Event → Level
  | .plannedStep _ _ => .trace
  | .plannedBuild _ _ _ => .debug
  | .rejectedCopy _ _ => .debug
  | .runningStep quiet _ _ _ => if quiet then .debug else .info
  | .failedStep _ _ _ => .error
  | .aborted _ _ => .warn

def message : Event → String
  | .plannedStep _ _ => "Planned step"
  | .plannedBuild _ _ _ => "Planned build"
  | .rejectedCopy _ _ => "Rejected COPY step"
  | .runningStep _ _ _ _ => "Running build step"
  | .failedStep _ _ _ => "Error running step"
  | .aborted _ _ => "Aborting build after failed step"

def fields : Event → List (String × Detail)
  | .plannedStep index kind => [("index", .number index), ("kind", .text kind)]
  | .plannedBuild identity instructions steps =>
    [("identity", .text identity), ("instructions", .number instructions),
      ("steps", .number steps)]
  | .rejectedCopy identity dest => [("identity", .text identity), ("dest", .text dest)]
  | .runningStep _ step total command =>
    [("step", .number step), ("total", .number total), ("command", .text command)]
  | .failedStep step exitCode command =>
    [("step", .number step), ("exit_code", .number exitCode), ("command", .text command)]
  | .aborted step skipped => [("step", .number step), ("skipped", .number skipped)]

end Event

end ImageRecipe
