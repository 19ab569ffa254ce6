import ImageRecipe.Decode.Content
import ImageRecipe.Decode.StepReader
import ImageRecipe.Json.Reader
import ImageRecipe.Recipe.Definition

/-!
# Reading records from JSON

A record is an object with named fields, or an array of its fields in order.
As for YAML, what is said of a text with several faults is the first of them;
but nothing is said of places.
-/

namespace ImageRecipe.Decode.TreeReading

open Json (Tree)

/-- What a tree is called; `none` when it is malformed. -/
def found? : Tree → Option Found
  | .broken | .overflow | .unpaired => none
  | .null => some .nothing
  | .bool b => some (.bool b)
  | .int n => some (.int n)
  | .float x => some (.float x)
  | .string s => some (.text s)
  | .array _ => some .sequence
  | .object _ => some .mapping

def mismatch (expected : Expected) (t : Tree) : Misread :=
  match found? t with
  | some found => .misfits (.wrongType found expected)
  | none => .malformed

abbrev Reader (α : Type) := Tree → Except Misread α

/-! ### Parts of records -/

def text (expected : Expected) : Reader String
  | .string s => .ok s
  | t => .error (mismatch expected t)

def bool : Reader Bool
  | .bool b => .ok b
  | t => .error (mismatch .boolean t)

/-- What may be absent; a null says that it is. -/
def optional {α : Type} (read : Reader α) : Reader (Option α)
  | .null => .ok none
  | t => some <$> read t

def texts : Reader (List String)
  | .array ts => ts.mapM (text .string)
  | t => .error (mismatch .sequence t)

def unit : Reader Unit
  | .null => .ok ()
  | t => .error (mismatch .unit t)

/-! ### Records -/

abbrev Fields (φ : Type) := List (String × Reader φ)

/-- The named fields that `known` lists, besides those in `seen`; the others are passed over. -/
def named {φ : Type} (known : Fields φ) :
    (seen : List String) → List (Tree × Tree) → Except Misread (List φ)
  | _, [] => .ok []
  | seen, (k, v) :: r => do
    match k with
    | .string name =>
      match known.lookup name with
      | none =>
        if v.isBroken then throw .malformed
        named known seen r
      | some read =>
        if seen.contains name then throw (.misfits (.duplicateField name))
        let x ← read v
        return x :: (← named known (name :: seen) r)
    | _ => throw .malformed

/-- The fields that stand in order, of which the last ones may be left out; `excess` is said of
more than there are. -/
def positional {φ : Type} (excess : Misread) :
    List (Reader φ) → List Tree → Except Misread (List φ)
  | _, [] => .ok []
  | [], _ :: _ => .error excess
  | read :: reads, t :: r => do
    let x ← read t
    return x :: (← positional excess reads r)

def record {φ : Type} (expected : Expected) (known : Fields φ) : Reader (List φ)
  | .object ms => named known [] ms
  | .array ts => positional .malformed (known.map (·.2)) ts
  | t => .error (mismatch expected t)

/-! ### Labels -/

def labelsFields : Fields Labels.Field :=
  [(Labels.authorsKey, fun t => .authors <$> texts t),
    (Labels.versionKey, fun t => .version <$> optional (text .string) t),
    (Labels.descriptionKey, fun t => .description <$> optional (text .string) t)]

def labels : Reader Labels := fun t =>
  Labels.ofFields <$> record .labels labelsFields t

/-! ### Settings -/

/-- A policy, by its name or as the one key of an object with the value null. -/
def policy : Reader Policy
  | .string name => Decode.policy name
  | .object ((k, v) :: r) => do
    let p ← Decode.policy (← text .variant k)
    unit v
    if r.isEmpty then return p else throw .malformed
  | _ => .error .malformed

def settingsFields : Fields Settings.Field :=
  [(Settings.shellKey, fun t => .shell <$> text .string t),
    (Settings.policyKey, fun t => .policy <$> policy t),
    (Settings.quietKey, fun t => .quiet <$> bool t)]

def settings : Reader Settings := fun t =>
  Settings.ofFields <$> record .settings settingsFields t

/-! ### Steps -/

mutual

/-- Any tree as content, with collections nested less than `room` deep. -/
def content : (room : Nat) → Tree → Except Misread Content
  | _, .null => .ok .nothing
  | _, .bool b => .ok (.bool b)
  | _, .int n => .ok (.int n)
  | _, .float x => .ok (.float x)
  | _, .string s => .ok (.text s)
  | room, .array ts =>
    if room ≤ 1 then .error .malformed else .sequence <$> contents (room - 1) ts
  | room, .object ms =>
    if room ≤ 1 then .error .malformed else .mapping <$> contentMembers (room - 1) ms
  | _, _ => .error .malformed
termination_by structural _ t => t

def contents (room : Nat) : List Tree → Except Misread (List Content)
  | [] => .ok []
  | t :: r => do
    let c ← content room t
    return c :: (← contents room r)
termination_by structural ts => ts

def contentMembers (room : Nat) : List (Tree × Tree) → Except Misread (List (Content × Content))
  | [] => .ok []
  | (k, v) :: r => do
    let c ← content room k
    let d ← content room v
    return (c, d) :: (← contentMembers room r)
termination_by structural ms => ms

end

def kind (t : Tree) : Except Misread StepKind := do
  stepKind (← text .variant t)

/-- The kind that the members of an object name, besides `found`, and the other members as
content. -/
def kindMembers (room : Nat) :
    (found : Option StepKind) → List (Tree × Tree) →
      Except Misread (StepKind × List (Content × Content))
  | some k, [] => .ok (k, [])
  | none, [] => .error (.misfits (.missingField Step.kindField))
  | found, (k, v) :: r => do
    match k with
    | .string name =>
      if name = Step.kindField then
        if found.isSome then throw (.misfits (.duplicateField Step.kindField))
        let kd ← kind v
        kindMembers room (some kd) r
      else
        let c ← content room v
        let (kd, rest) ← kindMembers room found r
        return (kd, (.text name, c) :: rest)
    | _ => throw .malformed

def kindAndContent : Reader (StepKind × Content)
  | .object ms => do
    let (kd, rest) ← kindMembers (depthLimit - 1) none ms
    return (kd, .mapping rest)
  | .array [] => .error (.misfits (.missingField Step.kindField))
  | .array (t :: r) => do
    let kd ← kind t
    return (kd, .sequence (← contents (depthLimit - 1) r))
  | t => .error (mismatch .step t)

def step (t : Tree) : Except Misread Step := do
  let (kd, c) ← kindAndContent t
  c.step kd

/-! ### Whole texts -/

def readJson {α : Type} (read : Reader α) (s : String) : Except Misread α :=
  let (t, complete) := Json.read s
  match read t with
  | .error e => .error e
  | .ok x => if complete then .ok x else .error .malformed

/-! ### Settings from a value

The members of an object that is already a value have no order and no
repetitions, so the one with the least key counts as the first.
-/

/-- Puts a member at its place by key, instead of a member with the same key. -/
def insertMember (m : String × Tree) : List (String × Tree) → List (String × Tree)
  | [] => [m]
  | n :: r =>
    if m.1 < n.1 then m :: n :: r
    else if m.1 = n.1 then m :: r
    else n :: insertMember m r

def sorted (ms : List (Tree × Tree)) : List (String × Tree) :=
  ms.foldl (fun acc m => match m.1 with | .string k => insertMember (k, m.2) acc | _ => acc) []

def policyOfValue : Reader Policy
  | .string name => Decode.policy name
  | .object ms =>
    match sorted ms with
    | [(name, v)] => do
      let p ← Decode.policy name
      unit v
      return p
    | _ => .error (.misfits (.wrongValue .mapping .singleKey))
  | t => .error (mismatch .variantRecord t)

def settingsFieldsOfValue : Fields Settings.Field :=
  [(Settings.shellKey, fun t => .shell <$> text .string t),
    (Settings.policyKey, fun t => .policy <$> policyOfValue t),
    (Settings.quietKey, fun t => .quiet <$> bool t)]

def settingsOfValue : Reader Settings
  | .object ms =>
    let members := (sorted ms).map fun m => (Tree.string m.1, m.2)
    Settings.ofFields <$> named settingsFieldsOfValue [] members
  | .array ts =>
    Settings.ofFields <$> positional (.misfits (.wrongLength ts.length .fewerElements))
      (settingsFieldsOfValue.map (·.2)) ts
  | t => .error (mismatch .settings t)

end ImageRecipe.Decode.TreeReading
