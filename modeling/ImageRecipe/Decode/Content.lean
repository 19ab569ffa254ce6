import ImageRecipe.Decode.Variant

/-!
# Steps from untyped content

The fields of a step may stand before the one that names its kind, so a step
is first read as `Content`, which keeps what each value is, and the fields are
taken from it once the kind is known.  Places are not known here any more.
-/

namespace ImageRecipe.Decode

inductive Content where
  | nothing
  | bool (b : Bool)
  | int (n : Int)
  | float (x : Number.Floating)
  | text (s : String)
  | sequence (items : List Content)
  | mapping (entries : List (Content × Content))

namespace Content

def found : Content → Found
  | .nothing => .nothing
  | .bool b => .bool b
  | .int n => .int n
  | .float x => .float x
  | .text s => .text s
  | .sequence _ => .sequence
  | .mapping _ => .mapping

/-- A text, and nothing else. -/
def string : Content → Except Misread String
  | .text s => .ok s
  | c => .error (.misfits (.wrongType c.found .string))

/-- The field of a step that a key names, if there is such a field: by its name, or by its
number among the fields. -/
def fieldName (kind : StepKind) : Content → Except Misread (Option String)
  | .text s => .ok (kind.fieldNames.find? (· == s))
  | .int n =>
    if 0 ≤ n then .ok kind.fieldNames[n.toNat]?
    else .error (.misfits (.wrongType (.int n) .field))
  | c => .error (.misfits (.wrongType c.found .field))

/-- The texts of a step's fields by their names, besides those in `seen`. -/
def fieldTexts (kind : StepKind) (seen : List (String × String)) :
    List (Content × Content) → Except Misread (List (String × String))
  | [] => .ok seen
  | (k, v) :: r => do
    match ← fieldName kind k with
    | none => fieldTexts kind seen r
    | some name =>
      if (seen.lookup name).isSome then throw (.misfits (.duplicateField name))
      fieldTexts kind (seen ++ [(name, ← v.string)]) r

/-- The texts of fields that all must be there. -/
def required (texts : List (String × String)) : List String → Except Misread (List String)
  | [] => .ok []
  | name :: r => do
    match texts.lookup name with
    | none => throw (.misfits (.missingField name))
    | some s => return s :: (← required texts r)

/-- The texts of a step whose fields stand one after the other without names. -/
def positional (kind : StepKind) (count : Nat) : (names : List String) → List Content →
    Except Misread (List String)
  | [], [] => .ok []
  | [], r => .error (.misfits (.wrongLength (count + r.length) (.elements count)))
  | _ :: _, [] => .error (.misfits (.wrongLength count (.stepFields kind)))
  | _ :: names, c :: r => do
    let s ← c.string
    return s :: (← positional kind (count + 1) names r)

def stepTexts (kind : StepKind) : Content → Except Misread (List String)
  | .mapping entries => do required (← fieldTexts kind [] entries) kind.fieldNames
  | .sequence items => positional kind 0 kind.fieldNames items
  | c => .error (.misfits (.wrongType c.found (.stepFields kind)))

def step (kind : StepKind) (c : Content) : Except Misread Step := do
  match Step.ofFields? kind (← c.stepTexts kind) with
  | some s => return s
  | none => throw .malformed

end Content

end ImageRecipe.Decode
