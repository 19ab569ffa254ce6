import ImageRecipe.Number.Digits

/-!
# Failures

What can go wrong between a recipe and its image, by the stage at which it
does.  `Failure.message` is the text shown for each.
-/

namespace ImageRecipe

inductive Failure where
  /-- A change of a recipe that was refused. -/
  | validation (text : String)
  /-- A command that ended with an exit code other than zero. -/
  | execution (command : String) (exitCode : Int)
  /-- The system could not start a command or read a file. -/
  | io (text : String)
  /-- A text that does not describe what it should. -/
  | serialization (text : String)
  /-- A setting that is not recognised. -/
  | config (text : String)
  deriving DecidableEq, Repr

namespace Failure

/-- Files are copied to absolute paths only. -/
def relativeDestination (dest : String) : Failure :=
  .validation ("destination path should be absolute: " ++ dest)

/-- A setting of the failure policy that names none; it is quoted as it was given. -/
def unknownPolicy (text : String) : Failure :=
  .config ("unknown failure policy: '" ++ text ++ "' (supported: continue, abort)")

def message : Failure → String
  | .validation text => "Validation error: " ++ text
  | .execution command exitCode =>
    "Build step failed (exit " ++ String.ofList (Number.signedDecimal exitCode) ++ "): " ++ command
  | .io text => "I/O error: " ++ text
  | .serialization text => "Serialization error: " ++ text
  | .config text => "Configuration error: " ++ text

end Failure

end ImageRecipe
