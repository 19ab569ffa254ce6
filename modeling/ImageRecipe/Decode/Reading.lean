import ImageRecipe.Decode.Misread
import ImageRecipe.Yaml.Document
import ImageRecipe.Yaml.Resolve

/-!
# Reading YAML nodes

The common part of all readers of YAML: following aliases, telling what a node
is when it is not what it should be, and the shapes that records are made of —
texts, flags, what may be absent, lists, and records with named fields.

A reader takes a document in order.  So what it says of a text with several
faults is the first of them.
-/

namespace ImageRecipe.Decode

open Yaml

/-- Reading a document, with the number of aliases that may still be followed. -/
abbrev Reading := StateT Nat (Except Misread)

namespace Reading

/-- Reads at a place: a misfit that tells no place of its own lies here. -/
def within {α : Type} (place : Place) (r : Reading α) : Reading α := fun k =>
  (r k).mapError (Misread.located place)

def misfit {α : Type} (cause : Cause) : Reading α :=
  throw (.misfits cause)

/-- The node itself, or the one that an alias stands for. -/
def follow (anchors : List (Nat × Node)) : Node → Reading Node
  | .alias number => do
    match ← get with
    | 0 => throw .malformed
    | k + 1 =>
      set k
      match anchors.lookup number with
      | some n => return n
      | none => throw .malformed
  | n => return n

/-! ### What a node is -/

def coreTag (name : String) : String :=
  "tag:yaml.org,2002:" ++ name

/-- The name of a tag of the document's own; a lone mark is its own name. -/
def localTag? (p : Properties) : Option String :=
  match p.tag.map String.toList with
  | some ['!'] => some "!"
  | some ('!' :: r) => some (String.ofList r)
  | _ => none

/-- What a scalar denotes; a tag that says what it must denote is held to. -/
def meaning (p : Properties) (style : Style) (text : String) : Except Cause Meaning :=
  let s := text.toList
  let orElse {α : Type} (x : Option α) (make : α → Meaning) (expected : Expected) :=
    match x with
    | some x => .ok (make x)
    | none => .error (Cause.wrongValue (.text text) expected)
  match p.tag with
  | none => .ok (if style = .plain then resolve s else .text)
  | some tag =>
    if tag = coreTag "bool" then orElse (readBool s) .bool .boolean
    else if tag = coreTag "int" then orElse (readInt s) .int .integer
    else if tag = coreTag "float" then orElse (readFloat s) .float .float
    else if tag = coreTag "null" then
      orElse (if isNull s then some () else none) (fun _ => .null) .null
    else if (localTag? p).isSome ∧ style = .plain then .ok (resolve s)
    else .ok .text

def foundScalar (text : String) : Meaning → Found
  | .null => .nothing
  | .bool b => .bool b
  | .int n => .int n
  | .float x => .float x
  | .text => .text text

def mismatch (expected : Expected) : Node → Misread
  | .scalar p style text =>
    match meaning p style text with
    | .ok m => .misfits (.wrongType (foundScalar text m) expected)
    | .error cause => .misfits cause
  | .sequence _ _ => .misfits (.wrongType .sequence expected)
  | .mapping _ _ => .misfits (.wrongType .mapping expected)
  | .broken | .void | .alias _ => .malformed

/-- Whether a node is left out, which is as good as an empty collection. -/
def leftOut : Node → Bool
  | .void => true
  | .scalar _ style text => style = .plain && text.isEmpty
  | _ => false

/-! ### Scalars -/

variable (anchors : List (Nat × Node))

/-- A text; any scalar is one, as it is written. -/
def text (expected : Expected) (place : Place) (n : Node) : Reading String :=
  within place do
    match ← follow anchors n with
    | .scalar _ _ t => return t
    | m => throw (mismatch expected m)

/-- Whether the spelling of a scalar counts when a value of a core type is expected. -/
def spells (type : String) (p : Properties) (style : Style) : Bool :=
  style = .plain || (style = .literal && p.tag = some (coreTag type))

def bool (place : Place) (n : Node) : Reading Bool :=
  within place do
    match ← follow anchors n with
    | .scalar p style t =>
      match if spells "bool" p style then readBool t.toList else none with
      | some b => return b
      | none => throw (mismatch .boolean (.scalar p style t))
    | m => throw (mismatch .boolean m)

/-- A port: a natural number of 16 bits. -/
def port (place : Place) (n : Node) : Reading UInt16 :=
  within place do
    match ← follow anchors n with
    | .scalar p style t =>
      let spelled := if spells "int" p style then readNat t.toList else none
      match spelled.filter (· < Number.bits 64) with
      | some k =>
        if k < 65536 then return UInt16.ofNat k
        else throw (.misfits (.wrongValue (.int k) .port))
      | none => throw (mismatch .port (.scalar p style t))
    | m => throw (mismatch .port m)

/-- What may be absent; a null that is not quoted says that it is. -/
def optional {α : Type} (read : Place → Node → Reading α) (place : Place) (n : Node) :
    Reading (Option α) := do
  match ← follow anchors n with
  | .broken => throw .malformed
  | .void => return none
  | .scalar p style t =>
    let isNone ←
      if style ≠ .plain then pure false
      else
        match p.tag with
        | none => pure (t.isEmpty || isNull t.toList)
        | some tag =>
          if tag ≠ coreTag "null" then pure false
          else if isNull t.toList then pure true
          else misfit (.wrongValue (.text t) .null)
    if isNone then return none else some <$> read place (.scalar p style t)
  | m => some <$> read place m

/-! ### Collections -/

/-- The items of a sequence from the item with an index on. -/
def items {α : Type} (read : Place → Node → Reading α) (place : Place) :
    (index : Nat) → List Node → Reading (List α)
  | _, [] => return []
  | i, n :: r => do
    let x ← read (place ++ [.item i]) n
    return x :: (← items read place (i + 1) r)

def list {α : Type} (read : Place → Node → Reading α) (place : Place) (n : Node) :
    Reading (List α) :=
  within place do
    match ← follow anchors n with
    | .sequence _ ns => items read place 0 ns
    | m => if leftOut m then return [] else throw (mismatch .sequence m)

def texts (place : Place) (n : Node) : Reading (List String) :=
  list anchors (text anchors .string) place n

def valuePlace (place : Place) : (key : Node) → Place
  | .scalar _ _ t => place ++ [.field t]
  | _ => place ++ [.unnamed]

/-- Passes over a value, which only has to be there. -/
def ignore (n : Node) : Reading Unit :=
  if n.isBroken then throw .malformed else return ()

abbrev Fields (φ : Type) := List (String × (Place → Node → Reading φ))

/-- The fields that `known` lists, besides those in `seen`; the others are passed over. -/
def fields {φ : Type} (known : Fields φ) (place : Place) :
    (seen : List String) → List (Node × Node) → Reading (List φ)
  | _, [] => return []
  | seen, (k, v) :: r => do
    let name ← text anchors .field place k
    match known.lookup name with
    | none =>
      ignore v
      fields known place seen r
    | some read =>
      if seen.contains name then misfit (.duplicateField name)
      let x ← read (valuePlace place k) v
      return x :: (← fields known place (name :: seen) r)

def record {φ : Type} (expected : Expected) (known : Fields φ) (place : Place) (n : Node) :
    Reading (List φ) :=
  within place do
    match ← follow anchors n with
    | .mapping _ entries => fields anchors known place [] entries
    | m => if leftOut m then return [] else throw (mismatch expected m)

end Reading

def readYaml {α : Type} (read : List (Nat × Node) → Place → Node → Reading α) (text : String) :
    Except Misread α :=
  let d := Document.load text
  match read d.anchors [] d.root d.aliasLimit with
  | .error e => .error e
  | .ok (x, _) => if d.complete then .ok x else .error .malformed

end ImageRecipe.Decode
