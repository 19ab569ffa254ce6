import ImageRecipe.Build.Event
import ImageRecipe.Build.Script
import ImageRecipe.Build.Settings

/-!
# Runs

Lines run one after the other.  A `Runner` answers a line with an exit code,
or with the reason why the system could not start it, and may take into
account what ran before.  `Run` is all that a run leaves behind: the lines that
were handed over, the events, and the report or the failure that ended it.
-/

namespace ImageRecipe

structure Outcome where
  command : String
  exitCode : Int
  deriving DecidableEq, Repr

namespace Outcome

def success (o : Outcome) : Bool :=
  o.exitCode == 0

end Outcome

structure Report where
  steps : List Outcome := []
  deriving DecidableEq, Repr

namespace Report

def success (r : Report) : Bool :=
  r.steps.all Outcome.success

def failures (r : Report) : List Outcome :=
  r.steps.filter fun o => !o.success

end Report

/-- The answer to a line after the lines that were handed over before it: an exit code, or why
the line could not be started. -/
abbrev Runner := List String → String → Except String Int

/-- The exit code recorded for a process that a signal ended. -/
def signalExitCode : Int := -1

structure Run where
  /-- The lines handed to the runner, in order. -/
  handed : List String := []
  events : List Event := []
  result : Except Failure Report

namespace Run

/-- The run that begins with a line and goes on as `rest`. -/
def after (line : String) (events : List Event) (rest : Run) : Run :=
  { handed := line :: rest.handed, events := events ++ rest.events, result := rest.result }

end Run

namespace Settings

/-- The run of the lines that remain after `done`. -/
def runFrom (s : Settings) (runner : Runner) (total : Nat) (done : List Outcome) :
    List String → Run
  | [] => { result := .ok ⟨done⟩ }
  | line :: rest =>
    let step := done.length + 1
    let running := Event.runningStep s.quiet step total line
    match runner (done.map Outcome.command) line with
    | .error reason => ⟨[line], [running], .error (.io reason)⟩
    | .ok exitCode =>
      let outcome : Outcome := ⟨line, exitCode⟩
      if outcome.success then
        (runFrom s runner total (done ++ [outcome]) rest).after line [running]
      else
        let failed := Event.failedStep step exitCode line
        match s.policy with
        | .abort =>
          ⟨[line], [running, failed, .aborted step (total - step)],
            .error (.execution line exitCode)⟩
        | .continue =>
          (runFrom s runner total (done ++ [outcome]) rest).after line [running, failed]

def runScript (s : Settings) (runner : Runner) (lines : List String) : Run :=
  s.runFrom runner lines.length [] lines

end Settings

def Spec.planEvents (s : Spec) : List Event :=
  s.definition.steps.mapIdx (fun i step => .plannedStep i step.kind.name)
    ++ [.plannedBuild s.identity s.plan.length s.definition.steps.length]

def Spec.changeEvents (s : Spec) (c : Change) : List Event :=
  match c, s.apply c with
  | .copy _ dest, .error _ => [.rejectedCopy s.identity dest]
  | _, _ => []

/-- The run that builds a recipe and commits it as `image`. -/
def Settings.build (s : Settings) (runner : Runner) (spec : Spec) (image : String) : Run :=
  let run := s.runScript runner (spec.script image)
  { run with events := spec.planEvents ++ run.events }

end ImageRecipe
