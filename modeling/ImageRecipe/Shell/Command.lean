/-!
# Command lines

Lines are handed to the system's shell, and what that makes of them is not part
of the library: all results are about any `Runner` whatever.  This module and
`Shell.Eval` only serve to run a line here as the shell would, so that runs can
be tried out, and no result reaches them.

They know as much of the shell's language as a line needs to decide its own
exit code: words with quotes and parameters, lists, pipes, groups, subshells and
conditions.  `Command.parse` reads a line; a line that uses anything else has no
meaning here.
-/

namespace ImageRecipe.Shell

inductive Part where
  | text (s : List Char) (isQuoted : Bool)
  | parameter (name : String) (isQuoted : Bool)
  deriving DecidableEq, Repr

abbrev Word := List Part

inductive Lexeme where
  | word (w : Word)
  /-- An operator, or the end of a line. -/
  | mark (s : String)
  deriving DecidableEq, Repr

/-! ### Words -/

def isNameStart (c : Char) : Bool :=
  c.isAlpha || c == '_'

def isNameChar (c : Char) : Bool :=
  c.isAlphanum || c == '_'

/-- The parameter behind a dollar sign, and the rest; `none` when the sign stands for itself. -/
def parameter? : List Char → Option (String × List Char)
  | [] => none
  | '\x7b' :: r =>
    match r.dropWhile (· ≠ '\x7d') with
    | [] => none
    | _ :: rest => some (String.ofList (r.takeWhile (· ≠ '\x7d')), rest)
  | c :: r =>
    if isNameStart c then
      some (String.ofList (c :: r.takeWhile isNameChar), r.dropWhile isNameChar)
    else if c.isDigit || "?#$@*!-".toList.contains c then some (String.ofList [c], r)
    else none

def doubleQuoted : (fuel : Nat) → List Char → Option (Word × List Char)
  | 0, _ | _, [] => none
  | _ + 1, '"' :: r => some ([], r)
  | n + 1, '\\' :: c :: r => do
    let kept := if "\\\"$\x60".toList.contains c then [c] else if c = '\n' then [] else ['\\', c]
    let (w, r) ← doubleQuoted n r
    return (.text kept true :: w, r)
  | n + 1, '$' :: r =>
    match parameter? r with
    | some (name, r) => do
      let (w, r) ← doubleQuoted n r
      return (.parameter name true :: w, r)
    | none => do
      let (w, r) ← doubleQuoted n r
      return (.text ['$'] true :: w, r)
  | n + 1, c :: r =>
    if c = '\x60' then none
    else do
      let (w, r) ← doubleQuoted n r
      return (.text [c] true :: w, r)

/-- A word so far, its last part first, as a lexeme. -/
def endWord : Option Word → List Lexeme
  | none => []
  | some w => [.word w.reverse]

def lexemes : (fuel : Nat) → Option Word → List Char → Option (List Lexeme)
  | 0, _, _ => none
  | _, w, [] => some (endWord w)
  | n + 1, w, c :: r =>
    let grown (p : Word) : Option Word := some (p ++ w.getD [])
    let marked (s : String) (r : List Char) : Option (List Lexeme) :=
      (lexemes n none r).map fun ls => endWord w ++ .mark s :: ls
    if c = ' ' || c = '\t' then (lexemes n none r).map (endWord w ++ ·)
    else if c = '\n' then marked "\n" r
    else if c = ';' || c = '(' || c = ')' then marked (String.ofList [c]) r
    else if c = '&' && r.head? == some '&' then marked "&&" (r.drop 1)
    else if c = '|' && r.head? == some '|' then marked "||" (r.drop 1)
    else if c = '|' then marked "|" r
    else if c = '&' || c = '<' || c = '>' || c = '\x60' then none
    else if c = '#' && w.isNone then lexemes n none (r.dropWhile (· ≠ '\n'))
    else if c = '\'' then
      match r.dropWhile (· ≠ '\'') with
      | [] => none
      | _ :: rest => lexemes n (grown [.text (r.takeWhile (· ≠ '\'')) true]) rest
    else if c = '"' then
      match doubleQuoted (r.length + 1) r with
      | none => none
      | some (inside, rest) => lexemes n (grown (inside.reverse ++ [.text [] true])) rest
    else if c = '\\' then
      match r with
      | [] => lexemes n (grown [.text ['\\'] true]) []
      | '\n' :: r => lexemes n w r
      | d :: r => lexemes n (grown [.text [d] true]) r
    else if c = '$' then
      match parameter? r with
      | some (name, rest) => lexemes n (grown [.parameter name false]) rest
      | none => if r.head? == some '(' then none else lexemes n (grown [.text ['$'] false]) r
    else lexemes n (grown [.text [c] false]) r

/-! ### Commands -/

inductive Command where
  | nothing
  | simple (words : List Word)
  | not (c : Command)
  | pipe (c d : Command)
  | and (c d : Command)
  | or (c d : Command)
  | seq (c d : Command)
  | subshell (c : Command)
  | branch (condition yes no : Command)
  deriving Repr

/-- The text of a word without quotes and parameters. -/
def literal? : Word → Option (List Char)
  | [] => some []
  | .text s false :: r => (literal? r).map (s ++ ·)
  | _ => none

def reserved? : List Lexeme → Option String
  | .word w :: _ => (literal? w).map String.ofList
  | _ => none

/-- Passes over one reserved word. -/
def expect (s : String) (ls : List Lexeme) : Option (List Lexeme) :=
  if reserved? ls = some s then some (ls.drop 1) else none

def takeWords : List Lexeme → List Word × List Lexeme
  | .word w :: r => let (ws, r) := takeWords r; (w :: ws, r)
  | r => ([], r)

def endsList (ls : List Lexeme) : Bool :=
  ls.isEmpty || ls.head? == some (.mark ")")
    || ((reserved? ls).any fun s =>
      ["\x7d", "then", "elif", "else", "fi"].contains s)

def skipEnds (ls : List Lexeme) : List Lexeme :=
  ls.dropWhile (· == .mark "\n")

/-- What a condition without an `else` does when it is false: nothing, with success. -/
def Command.succeed : Command :=
  .simple [[.text [':'] false]]

mutual

def parseList : (fuel : Nat) → List Lexeme → Option (Command × List Lexeme)
  | 0, _ => none
  | n + 1, ls =>
    let ls := skipEnds ls
    if endsList ls then some (.nothing, ls)
    else do
      let (c, r) ← parseChain n ls
      match r with
      | .mark s :: r' =>
        if s = ";" ∨ s = "\n" then
          let (d, r) ← parseList n r'
          return (.seq c d, r)
        else if endsList r then some (c, r)
        else none
      | r => if endsList r then some (c, r) else none
termination_by structural fuel => fuel

/-- Commands joined by `&&` and `||`. -/
def parseChain : (fuel : Nat) → List Lexeme → Option (Command × List Lexeme)
  | 0, _ => none
  | n + 1, ls => do
    let (c, r) ← parseNegation n ls
    parseChainFrom c n r
termination_by structural fuel => fuel

/-- What follows a command in a chain; both signs bind to the left. -/
def parseChainFrom (c : Command) : (fuel : Nat) → List Lexeme → Option (Command × List Lexeme)
  | 0, _ => none
  | n + 1, ls =>
    match ls with
    | .mark "&&" :: r => do
      let (d, r) ← parseNegation n (skipEnds r)
      parseChainFrom (.and c d) n r
    | .mark "||" :: r => do
      let (d, r) ← parseNegation n (skipEnds r)
      parseChainFrom (.or c d) n r
    | r => some (c, r)
termination_by structural fuel => fuel

def parseNegation : (fuel : Nat) → List Lexeme → Option (Command × List Lexeme)
  | 0, _ => none
  | n + 1, ls =>
    if reserved? ls = some "!" then
      (parseNegation n (ls.drop 1)).map fun x => (.not x.1, x.2)
    else parsePipe n ls
termination_by structural fuel => fuel

def parsePipe : (fuel : Nat) → List Lexeme → Option (Command × List Lexeme)
  | 0, _ => none
  | n + 1, ls => do
    let (c, r) ← parseCommand n ls
    match r with
    | .mark "|" :: r => (parsePipe n (skipEnds r)).map fun x => (.pipe c x.1, x.2)
    | r => return (c, r)
termination_by structural fuel => fuel

def parseCommand : (fuel : Nat) → List Lexeme → Option (Command × List Lexeme)
  | 0, _ => none
  | n + 1, ls =>
    match ls with
    | .mark "(" :: r => do
      let (c, r) ← parseList n r
      match r with
      | .mark ")" :: r => return (.subshell c, r)
      | _ => none
    | .word _ :: r =>
      match reserved? ls with
      | some "\x7b" => do
        let (c, r) ← parseList n r
        return (c, ← expect "\x7d" r)
      | some "if" => parseBranch n r
      | _ =>
        let (ws, r) := takeWords ls
        some (.simple ws, r)
    | _ => none
termination_by structural fuel => fuel

/-- A condition behind `if` or `elif`. -/
def parseBranch : (fuel : Nat) → List Lexeme → Option (Command × List Lexeme)
  | 0, _ => none
  | n + 1, ls => do
    let (condition, r) ← parseList n ls
    let (yes, r) ← parseList n (← expect "then" r)
    match reserved? r with
    | some "elif" =>
      let (no, r) ← parseBranch n (r.drop 1)
      return (.branch condition yes no, r)
    | some "else" =>
      let (no, r) ← parseList n (r.drop 1)
      return (.branch condition yes no, ← expect "fi" r)
    | _ => return (.branch condition yes .succeed, ← expect "fi" r)
termination_by structural fuel => fuel

end

def Command.parse (line : List Char) : Option Command := do
  let ls ← lexemes (line.length + 1) none line
  let (c, r) ← parseList (8 * ls.length + 8) ls
  if r.isEmpty then some c else none

end ImageRecipe.Shell
