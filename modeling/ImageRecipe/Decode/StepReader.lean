import ImageRecipe.Decode.Content
import ImageRecipe.Decode.Reading

/-!
# Reading steps from YAML

A step is a mapping that names its kind in one field, wherever that stands, or
a sequence that starts with the kind.  Everything else in it is read as
content, deep down and through aliases, before the fields are looked at; so
how deep it may be nested is limited.
-/

namespace ImageRecipe.Decode

open Yaml

/-- How deep collections may be nested. -/
def depthLimit : Nat := 128

namespace Reading

variable (anchors : List (Nat × Node))

/-- A scalar as content.  Numbers beyond 64 bits and tags of the document's own are refused. -/
def scalarContent (expected : Expected) (p : Properties) (style : Style) (text : String) :
    Reading Content :=
  if (localTag? p).isSome then throw .malformed
  else
    match meaning p style text with
    | .error cause => misfit cause
    | .ok .null => return .nothing
    | .ok (.bool b) => return .bool b
    | .ok (.int n) =>
      if n < -Number.bits 63 || Number.bits 64 ≤ n then misfit (.wrongType (.int n) expected)
      else return .int n
    | .ok (.float x) => return .float x
    | .ok .text => return .text text

def contentEntries (key value : Place → Node → Reading Content) (place : Place) :
    List (Node × Node) → Reading (List (Content × Content))
  | [] => return []
  | (k, v) :: r => do
    let c ← key place k
    let d ← value (valuePlace place k) v
    return (c, d) :: (← contentEntries key value place r)

/-- Any node as content, with collections nested at most `room` deep. -/
def content (expected : Expected) : (room : Nat) → Place → Node → Reading Content
  | 0, place, n => within place do
    match ← follow anchors n with
    | .scalar p style t => scalarContent expected p style t
    | _ => throw .malformed
  | k + 1, place, n => within place do
    match ← follow anchors n with
    | .scalar p style t => scalarContent expected p style t
    | .sequence p ns =>
      if (localTag? p).isSome then throw .malformed
      else return .sequence (← items (fun q m => content .anyValue k q m) place 0 ns)
    | .mapping p entries =>
      if (localTag? p).isSome then throw .malformed
      else
        return .mapping (← contentEntries (fun q m => content .anyValue k q m)
          (fun q m => content .anyValue k q m) place entries)
    | _ => throw .malformed

def kind (place : Place) (n : Node) : Reading StepKind :=
  within place do
    let name ← text anchors .variant place n
    liftM (stepKind name)

/-- The kind that the entries of a mapping name, besides `found`, and the other entries as
content. -/
def kindEntries (room : Nat) (place : Place) :
    (found : Option StepKind) → List (Node × Node) →
      Reading (StepKind × List (Content × Content))
  | some k, [] => return (k, [])
  | none, [] => misfit (.missingField Step.kindField)
  | found, (k, v) :: r => do
    match ← content anchors .kindField room place k with
    | .text "type" =>
      if found.isSome then misfit (.duplicateField Step.kindField)
      let k' ← kind anchors (valuePlace place k) v
      kindEntries room place (some k') r
    | c =>
      let d ← content anchors .anyValue room (valuePlace place k) v
      let (k', rest) ← kindEntries room place found r
      return (k', (c, d) :: rest)

def kindAndContent (room : Nat) (place : Place) (n : Node) : Reading (StepKind × Content) :=
  within place do
    let m ← follow anchors n
    let tagged (p : Properties) : Reading Unit :=
      if (localTag? p).isSome then misfit (.wrongType .tagged .step) else return ()
    match m with
    | .void => misfit (.wrongType .void .step)
    | .scalar p _ _ =>
      tagged p
      throw (mismatch .step m)
    | .sequence p ns =>
      tagged p
      match room, ns with
      | 0, _ => throw .malformed
      | _ + 1, [] => misfit (.missingField Step.kindField)
      | k + 1, x :: r =>
        let kd ← kind anchors (place ++ [.item 0]) x
        return (kd, .sequence (← items (content anchors .anyValue k) place 1 r))
    | .mapping p entries =>
      tagged p
      match room with
      | 0 => throw .malformed
      | k + 1 =>
        let (kd, rest) ← kindEntries anchors k place none entries
        return (kd, .mapping rest)
    | _ => throw .malformed

/-- A step inside collections that leave `room` for more. -/
def step (room : Nat) (place : Place) (n : Node) : Reading Step := do
  let (kd, c) ← kindAndContent anchors room place n
  liftM (c.step kd)

end Reading

/-- The step of a YAML text.  The text is read to its end before the fields of the step are looked
at, so a fault of the text is told first wherever it lies. -/
def readStep (text : String) : Except Misread Step := do
  let (kd, c) ← readYaml (fun anchors => Reading.kindAndContent anchors depthLimit) text
  c.step kd

end ImageRecipe.Decode
