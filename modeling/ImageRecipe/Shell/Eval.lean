import ImageRecipe.Build.Run
import ImageRecipe.Shell.Command

/-!
# Running command lines

The system's shells for lines that use builtins only.  Every line runs in a
process of its own, so nothing that one line sets is seen by the next.
`Shell.runner` answers a line with the exit code of its process, or with the
reason why the shell could not be started.  It only serves to try out runs: the
results about runs are about every runner, and none is about this one.
-/

namespace ImageRecipe.Shell

inductive Dialect where
  /-- The standard shell. -/
  | standard
  /-- The shell with double-bracket tests. -/
  | extended
  deriving DecidableEq, Repr

structure State where
  dialect : Dialect
  /-- The name under which the shell was started. -/
  name : String
  bindings : List (String × String) := []
  status : Nat := 0
  /-- Whether the process exits at a command that fails. -/
  strict : Bool := false
  deriving Repr

inductive Flow where
  | next
  | exit
  | killed
  deriving DecidableEq, Repr

namespace State

def withStatus (s : State) (n : Nat) : State :=
  { s with status := n }

def withTruth (s : State) (b : Bool) : State :=
  s.withStatus (if b then 0 else 1)

def assign (s : State) (name value : String) : State :=
  { s with bindings := (name, value) :: s.bindings.filter (·.1 ≠ name) }

/-! ### Words -/

def process : Nat := 4711

def number (n : Nat) : String :=
  String.ofList (Number.decimal n)

/-- The value of a parameter by its name; what is not set is empty.  A line has no arguments. -/
def value (s : State) (name : String) : String :=
  match name with
  | "?" => number s.status
  | "#" => number 0
  | "$" => number process
  | "0" => s.name
  | _ => (s.bindings.lookup name).getD ""

/-- The blanks at which the value of a parameter without quotes is split. -/
def isSeparator (c : Char) : Bool :=
  c == ' ' || c == '\t' || c == '\n'

/-- The fields of a word behind a field so far, the last characters of which come first. -/
def fieldsFrom (s : State) : Option (List Char) → Word → List String
  | acc, [] => (acc.map fun cs => String.ofList cs.reverse).toList
  | acc, .text t _ :: r => fieldsFrom s (some (t.reverse ++ acc.getD [])) r
  | acc, .parameter name true :: r =>
    fieldsFrom s (some ((s.value name).toList.reverse ++ acc.getD [])) r
  | acc, .parameter name false :: r =>
    let (done, acc) := (s.value name).toList.foldl
      (fun (p : List String × Option (List Char)) c =>
        if isSeparator c then (p.1 ++ (p.2.map fun cs => String.ofList cs.reverse).toList, none)
        else (p.1, some (c :: p.2.getD [])))
      ([], acc)
    done ++ fieldsFrom s acc r

def fields (s : State) (w : Word) : List String :=
  s.fieldsFrom none w

/-- The text of a word that is not split. -/
def text (s : State) (w : Word) : String :=
  String.join (w.map fun
    | .text t _ => String.ofList t
    | .parameter name _ => s.value name)

def assignment? : Word → Option (String × Word)
  | w =>
    let cs := w.takeWhile fun
      | .text _ false => true
      | _ => false
    let lead := cs.flatMap fun
      | .text t _ => t
      | _ => []
    let name := lead.takeWhile isNameChar
    if lead.head?.any isNameStart && (lead.drop name.length).head? == some '=' then
      some (String.ofList name, .text (lead.drop (name.length + 1)) false :: w.drop cs.length)
    else none

end State

/-! ### Tests -/

def integer? (s : String) : Option Int :=
  match s.toList with
  | '-' :: r => (Number.ofDigits? 10 r).map fun n => -(n : Int)
  | '+' :: r => (Number.ofDigits? 10 r).map Int.ofNat
  | r => (Number.ofDigits? 10 r).map Int.ofNat

/-- The paths that are known to be there; all of them are directories. -/
def directories : List String :=
  ["/", ".", "..", "/tmp", "/dev", "/bin", "/usr", "/etc"]

def unaryTest (op x : String) : Option Bool :=
  match op with
  | "-n" => some (!x.isEmpty)
  | "-z" => some x.isEmpty
  | "-d" | "-e" => some (directories.contains x)
  | "-f" => some false
  | _ => none

def binaryTest (x op y : String) : Option Bool :=
  let compare (p : Int → Int → Bool) : Option Bool := do
    return p (← integer? x) (← integer? y)
  match op with
  | "=" | "==" => some (x == y)
  | "!=" => some (x != y)
  | "-eq" => compare (· == ·)
  | "-ne" => compare (· != ·)
  | "-lt" => compare (· < ·)
  | "-le" => compare (· ≤ ·)
  | "-gt" => compare (· > ·)
  | "-ge" => compare (· ≥ ·)
  | _ => none

/-- What the operands of a test say; `none` when they are no test.  How many there are decides
how they are taken. -/
def testResult : List String → Option Bool
  | [] => some false
  | [x] => some (!x.isEmpty)
  | [op, x] => if op = "!" then some x.isEmpty else unaryTest op x
  | [x, op, y] =>
    match binaryTest x op y with
    | some b => some b
    | none => if x = "!" then (unaryTest op y).map (!·) else none
  | [mark, x, op, y] => if mark = "!" then (binaryTest x op y).map (!·) else none
  | _ => none

/-! ### Builtins -/

def exitCode (s : State) : List String → Nat
  | [] => s.status
  | x :: _ =>
    match integer? x with
    | some n => if n < 0 ∧ s.dialect = .standard then 2 else (n % 256).toNat
    | none => 2

/-- The signals that do not end a process, by name and by number. -/
def harmlessSignals : List String :=
  ["0", "CHLD", "CONT", "URG", "WINCH", "17", "18", "23", "28"]

def kill (s : State) : List String → State × Flow
  | "-s" :: signal :: [target] => send signal target
  | [option, target] => send (String.ofList (option.toList.drop 1)) target
  | [target] => send "TERM" target
  | _ => (s.withStatus 2, .next)
where
  send (signal target : String) : State × Flow :=
    if target ≠ State.number State.process then (s.withStatus 1, .next)
    else if harmlessSignals.contains signal then (s.withStatus 0, .next)
    else (s, .killed)

/-- A command that is part of the shell.  Other commands are not found. -/
def builtin (s : State) (name : String) (args : List String) : State × Flow :=
  let tested (operands : List String) : State × Flow :=
    match testResult operands with
    | some b => (s.withTruth b, .next)
    | none => (s.withStatus 2, .next)
  match name with
  | ":" | "true" => (s.withStatus 0, .next)
  | "false" => (s.withStatus 1, .next)
  | "exit" => (s.withStatus (exitCode s args), .exit)
  | "return" =>
    if s.dialect = .standard then (s.withStatus (exitCode s args), .exit)
    else (s.withStatus 2, .next)
  | "test" => tested args
  | "[" => if args.getLast? = some "]" then tested args.dropLast else (s.withStatus 2, .next)
  | "[[" =>
    if s.dialect = .extended ∧ args.getLast? = some "]]" then tested args.dropLast
    else (s.withStatus 127, .next)
  | "kill" => kill s args
  | "cd" =>
    match args with
    | [dir] =>
      if directories.contains dir then
        let s := if dir.startsWith "/" then s.assign "PWD" dir else s
        (s.withStatus 0, .next)
      else (s.withStatus (if s.dialect = .standard then 2 else 1), .next)
    | _ => (s.withStatus 0, .next)
  | "export" =>
    let set (s : State) (a : String) : State :=
      let name := a.toList.takeWhile (· ≠ '=')
      if name.length < a.length then
        s.assign (String.ofList name) (String.ofList (a.toList.drop (name.length + 1)))
      else s
    ((args.foldl set s).withStatus 0, .next)
  | "unset" =>
    ({ s with bindings := s.bindings.filter (!args.contains ·.1), status := 0 }, .next)
  | "set" =>
    match args with
    | "-e" :: _ => ({ s with strict := true, status := 0 }, .next)
    | "+e" :: _ => ({ s with strict := false, status := 0 }, .next)
    | _ => (s.withStatus 0, .next)
  | _ => (s.withStatus 127, .next)

/-! ### Commands -/

/-- The end of a command that fails where nothing looks at its status. -/
def checked (guarded : Bool) : State × Flow → State × Flow
  | (s, .next) => (s, if s.strict && !guarded && s.status ≠ 0 then .exit else .next)
  | r => r

def splitAssignments : List Word → List (String × Word) × List Word
  | [] => ([], [])
  | w :: r =>
    match State.assignment? w with
    | some a => let (as, ws) := splitAssignments r; (a :: as, ws)
    | none => ([], w :: r)

/-- Runs a command; `guarded` says that something looks at its status.  Assignments before the name
of a command are for that command only, which no builtin looks at. -/
def run (guarded : Bool) (s : State) : Command → State × Flow
  | .nothing => (s, .next)
  | .simple words =>
    let (assignments, words) := splitAssignments words
    match words.flatMap s.fields with
    | [] => ((assignments.foldl (fun s a => s.assign a.1 (s.text a.2)) s).withStatus 0, .next)
    | name :: args => checked guarded (builtin s name args)
  | .not c =>
    match run true s c with
    | (t, .next) => (t.withTruth (t.status ≠ 0), .next)
    | r => r
  | .pipe c d =>
    match run true s c, run guarded s d with
    | (_, .killed), _ | _, (_, .killed) => (s, .killed)
    | _, (t, _) => checked guarded (s.withStatus t.status, .next)
  | .and c d =>
    match run true s c with
    | (t, .next) => if t.status = 0 then run guarded t d else (t, .next)
    | r => r
  | .or c d =>
    match run true s c with
    | (t, .next) => if t.status = 0 then (t, .next) else run guarded t d
    | r => r
  | .seq c d =>
    match run guarded s c with
    | (t, .next) => run guarded t d
    | r => r
  | .subshell c =>
    match run guarded s c with
    | (_, .killed) => (s, .killed)
    | (t, _) => checked guarded (s.withStatus t.status, .next)
  | .branch condition yes no =>
    match run true s condition with
    | (t, .next) => if t.status = 0 then run guarded t yes else run guarded t no
    | r => r

/-! ### Shells -/

inductive Program where
  | shell (dialect : Dialect)
  /-- A program that passes over its arguments. -/
  | constant (exitCode : Int)
  deriving DecidableEq, Repr

def programs : List (String × Program) :=
  [("sh", .shell .standard), ("dash", .shell .standard), ("bash", .shell .extended),
    ("true", .constant 0), ("false", .constant 1)]

/-- The directories in which programs lie; a name without a slash is looked up there. -/
def programDirectories : List String := ["", "/bin/", "/usr/bin/"]

def program? (path : String) : Option Program :=
  (programs.flatMap fun p => programDirectories.map fun d => (d ++ p.1, p.2)).lookup path

def Program.exitCode (name line : String) : Program → Int
  | .constant n => n
  | .shell dialect =>
    match Command.parse line.toList with
    | none => 2
    | some c =>
      match run false { dialect, name, bindings := [("PWD", "/work")] } c with
      | (_, .killed) => signalExitCode
      | (s, _) => s.status

/-- The longest name of a file, in bytes. -/
def longestName : Nat := 255

def start (path line : String) : Except String Int :=
  if path.toList.contains '\x00' ∨ line.toList.contains '\x00' then
    .error "nul byte found in provided data"
  else
    match program? path with
    | some p => .ok (p.exitCode path line)
    | none =>
      if directories.contains path then .error "Permission denied (os error 13)"
      else if (path.splitOn "/").any fun c => longestName < c.utf8ByteSize then
        .error "File name too long (os error 36)"
      else .error "No such file or directory (os error 2)"

def runner (shell : String) : Runner :=
  fun _ line => start shell line

end ImageRecipe.Shell
