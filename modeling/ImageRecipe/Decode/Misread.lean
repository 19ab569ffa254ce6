import ImageRecipe.Recipe.Step
import ImageRecipe.Text.Quoted
import ImageRecipe.Number.Binary64

/-!
# Misreadings

Why a text does not describe the record that it should.  Either it is
malformed, which is all that is said then, or something in it does not fit: a
`Cause`, found at a `Place` when the format tells places.
-/

namespace ImageRecipe.Decode

open Number (Floating)

inductive Format where
  | json
  | yaml
  deriving DecidableEq, Repr

inductive Found where
  | text (s : String)
  | int (n : Int)
  | float (x : Floating)
  | bool (b : Bool)
  /-- Null. -/
  | nothing
  /-- A text without any content. -/
  | void
  | sequence
  | mapping
  /-- A value under a tag. -/
  | tagged
  deriving DecidableEq, Repr

inductive Expected where
  | string
  | boolean
  | port
  | sequence
  | definition
  | labels
  | settings
  | step
  | stepFields (kind : StepKind)
  /-- So many elements and no more. -/
  | elements (n : Nat)
  | fewerElements
  | variant
  | variantRecord
  | singleKey
  | field
  | anyValue
  | kindField
  | unit
  | localTag
  | null
  | integer
  | float
  deriving DecidableEq, Repr

inductive Cause where
  | wrongType (found : Found) (expected : Expected)
  | wrongValue (found : Found) (expected : Expected)
  | wrongLength (n : Nat) (expected : Expected)
  | unknownVariant (name : String) (known : List String)
  | missingField (name : String)
  | duplicateField (name : String)
  deriving DecidableEq, Repr

/-- A step on the way from the root of a text to a place in it. -/
inductive Segment where
  | field (name : String)
  | item (index : Nat)
  /-- The value of a key that is no scalar. -/
  | unnamed
  deriving DecidableEq, Repr

abbrev Place := List Segment

inductive Misread where
  | malformed
  | misfit (place : Option Place) (cause : Cause)
  deriving DecidableEq, Repr

namespace Misread

/-- A misfit whose place is still to be found. -/
def misfits (cause : Cause) : Misread :=
  .misfit none cause

/-- A misfit without a place lies at the innermost value that is known to enclose it. -/
def located (place : Place) : Misread → Misread
  | .misfit none cause => .misfit (some place) cause
  | e => e

end Misread

/-! ### Wording -/

def elementsText (n : Nat) : String :=
  String.ofList (Number.decimal n) ++ if n = 1 then " element" else " elements"

namespace Expected

def message : Expected → String
  | .string => "a string"
  | .boolean => "a boolean"
  | .port => "u16"
  | .sequence => "a sequence"
  | .definition => "struct ImageDefinition"
  | .labels => "struct ImageLabels"
  | .settings => "struct DriverConfig"
  | .step => "internally tagged enum Step"
  | .stepFields kind =>
    "struct variant Step::" ++ kind.title ++ " with " ++ elementsText kind.fieldNames.length
  | .elements n => elementsText n ++ " in sequence"
  | .fewerElements => "fewer elements in array"
  | .variant => "variant identifier"
  | .variantRecord => "string or map"
  | .singleKey => "map with a single key"
  | .field => "field identifier"
  | .anyValue => "any value"
  | .kindField => "a type tag `type` or any other value"
  | .unit => "unit"
  | .localTag => "a YAML tag starting with '!'"
  | .null => "null"
  | .integer => "an integer"
  | .float => "a float"

end Expected

/-- A floating-point number in a message about YAML, all digits written out. -/
def positionalText : Floating → String
  | .nan => "NaN"
  | .infinite false => "inf"
  | .infinite true => "-inf"
  | .finite negative digits =>
    String.ofList ((if negative then ['-'] else []) ++ digits.positional)

/-- A floating-point number in a message about JSON: numbers below `0.00001`, and from `10 ^ 16`
on, have an exponent. -/
def exponentText : Floating → String
  | .finite negative digits =>
    let large := digits.magnitude < -5 || 15 < digits.magnitude
    String.ofList ((if negative then ['-'] else [])
      ++ if large && digits.d ≠ 0 then digits.scientific else digits.positional)
  | x => positionalText x

namespace Found

/-- A whole number beyond 64 bits is shown with its width. -/
def intText (n : Int) : String :=
  "integer `" ++ String.ofList (Number.signedDecimal n) ++ "`"
    ++ if Number.bits 64 ≤ n then " as u128" else if n < -Number.bits 63 then " as i128" else ""

def message (format : Format) : Found → String
  | .text s => "string " ++ Text.quoted s
  | .int n => intText n
  | .float x =>
    "floating point `"
      ++ (match format with | .json => exponentText x | .yaml => positionalText x) ++ "`"
  | .bool b => "boolean `" ++ (if b then "true" else "false") ++ "`"
  | .nothing => match format with | .json => "null" | .yaml => "unit value"
  | .void => "Option value"
  | .sequence => "sequence"
  | .mapping => "map"
  | .tagged => "enum"

end Found

def nameText (name : String) : String :=
  "`" ++ name ++ "`"

def offerText : List String → String
  | [] => ""
  | [a] => nameText a
  | [a, b] => nameText a ++ " or " ++ nameText b
  | names => "one of " ++ ", ".intercalate (names.map nameText)

namespace Cause

def message (format : Format) : Cause → String
  | .wrongType found expected =>
    "invalid type: " ++ found.message format ++ ", expected " ++ expected.message
  | .wrongValue found expected =>
    "invalid value: " ++ found.message format ++ ", expected " ++ expected.message
  | .wrongLength n expected =>
    "invalid length " ++ String.ofList (Number.decimal n) ++ ", expected " ++ expected.message
  | .unknownVariant name known =>
    "unknown variant " ++ nameText name ++ ", expected " ++ offerText known
  | .missingField name => "missing field " ++ nameText name
  | .duplicateField name => "duplicate field " ++ nameText name

end Cause

namespace Place

/-- One more segment behind the text of a place; the root has none. -/
def extend : Option String → Segment → Option String
  | none, .field name => some name
  | none, .item index => some (".[" ++ String.ofList (Number.decimal index) ++ "]")
  | none, .unnamed => some "?"
  | some p, .field name => some (p ++ "." ++ name)
  | some p, .item index => some (p ++ "[" ++ String.ofList (Number.decimal index) ++ "]")
  | some p, .unnamed => some (p ++ ".?")

/-- The text of a place; that of the root is a point. -/
def text (place : Place) : String :=
  (place.foldl extend none).getD "."

end Place

namespace Misread

/-- What is said of a misreading.  Places are told in YAML only, and a lone point is not told. -/
def message (format : Format) : Misread → String
  | .malformed => "<syntax>"
  | .misfit place cause =>
    let path := match format with | .json => "." | .yaml => (place.map Place.text).getD "."
    (if path = "." then "" else path ++ ": ") ++ cause.message format

end Misread

end ImageRecipe.Decode
