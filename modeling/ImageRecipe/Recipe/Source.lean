import ImageRecipe.Formats

/-!
# Definition files

A definition is read from a file as a whole.  `Entry` is what stands under the
file's name; names are relative to a directory that holds nothing else.
Reading fails before anything is parsed when there is no such file, or when
its bytes are no text.  What is wrong with the text itself is said under the
name of the file.
-/

namespace ImageRecipe

inductive Entry where
  | absent
  | directory
  | file (bytes : ByteArray)

namespace Entry

/-- The longest component of a path, in bytes. -/
def longestName : Nat := 255

/-- The longest path, in bytes. -/
def longestPath : Nat := 4095

def nulInName : Failure := .io "file name contained an unexpected NUL byte"

def notFound : Failure := .io "No such file or directory (os error 2)"

def nameTooLong : Failure := .io "File name too long (os error 36)"

def isDirectory : Failure := .io "Is a directory (os error 21)"

def notText : Failure := .io "stream did not contain valid UTF-8"

/-- Why nothing can be read under a name under which nothing was put.  The first component that
is not the directory itself decides. -/
def absence (name : String) : Failure :=
  let components := (name.splitOn "/").filter fun c => c ≠ "" ∧ c ≠ "." ∧ c ≠ ".."
  if longestPath < name.utf8ByteSize then nameTooLong
  else
    match components with
    | [] => if name.isEmpty then notFound else isDirectory
    | c :: _ => if longestName < c.utf8ByteSize then nameTooLong else notFound

def text (name : String) (e : Entry) : Except Failure String :=
  if name.toList.contains '\x00' then .error nulInName
  else
    match e with
    | .absent => .error (absence name)
    | .directory => .error isDirectory
    | .file bytes =>
      match String.fromUTF8? bytes with
      | some s => .ok s
      | none => .error notText

end Entry

/-- What is wrong with the text of a file is said under the file's name. -/
def Failure.inFile (name : String) : Failure → Failure
  | .serialization text => .serialization (name ++ ": " ++ text)
  | e => e

def Definition.ofFile (name : String) (e : Entry) : Except Failure Definition := do
  let text ← e.text name
  (ofYaml text).mapError (Failure.inFile name)

end ImageRecipe
