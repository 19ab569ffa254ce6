import ImageRecipe.Failure
import ImageRecipe.Text.Blank
import ImageRecipe.Text.Lower
import ImageRecipe.Value

/-!
# Failure policies and run settings

What a run does after a command that fails, and the other settings of a run.
`Policy.parse` reads a policy from a text: one of two words in letters of
either case, with any blanks around it.  `Settings.override` takes settings
from variables, of which the blank ones count as absent.
-/

namespace ImageRecipe

inductive Policy where
  /-- Record the failure and go on. -/
  | continue
  /-- Stop. -/
  | abort
  deriving DecidableEq, Repr

namespace Policy

def name : Policy → String
  | .continue => "continue"
  | .abort => "abort"

def all : List Policy :=
  [.continue, .abort]

def ofName? (s : String) : Option Policy :=
  all.find? fun p => p.name == s

def parse (text : String) : Except Failure Policy :=
  match ofName? (String.ofList (Text.lower (Text.trimChars text.toList))) with
  | some p => .ok p
  | none => .error (.unknownPolicy text)

end Policy

structure Settings where
  /-- The shell that runs each line. -/
  shell : String := "bash"
  policy : Policy := .continue
  /-- Report progress for debugging only. -/
  quiet : Bool := false
  deriving DecidableEq, Repr

namespace Settings

def shellKey : String := "shell"

def policyKey : String := "failure_policy"

def quietKey : String := "quiet"

def shellVariable : String := "KILN_SHELL"

def policyVariable : String := "KILN_FAILURE_POLICY"

/-- The value of a variable, unless it is blank. -/
def given (lookup : String → Option String) (name : String) : Option String :=
  (lookup name).filter fun v => !Text.allBlank v

/-- The settings with those taken from variables that are given. -/
def override (s : Settings) (lookup : String → Option String) : Except Failure Settings := do
  let s : Settings :=
    match given lookup shellVariable with
    | some shell => { s with shell := Text.trim shell }
    | none => s
  match given lookup policyVariable with
  | some text => return { s with policy := ← Policy.parse text }
  | none => return s

def ofVariables (lookup : String → Option String) : Except Failure Settings :=
  ({} : Settings).override lookup

def toValue (s : Settings) : Value :=
  .record [(shellKey, .text s.shell), (policyKey, .text s.policy.name), (quietKey, .flag s.quiet)]

inductive Field where
  | shell (v : String)
  | policy (v : Policy)
  | quiet (v : Bool)
  deriving DecidableEq, Repr

def set (s : Settings) : Field → Settings
  | .shell v => { s with shell := v }
  | .policy v => { s with policy := v }
  | .quiet v => { s with quiet := v }

/-- Settings with the given fields; the others are as in `{}`. -/
def ofFields (fs : List Field) : Settings :=
  fs.foldl set {}

end Settings

end ImageRecipe
