import ImageRecipe.Decode.StepReader
import ImageRecipe.Recipe.Definition

/-!
# Reading records from YAML

Definitions, labels and settings are mappings in which every field may be left
out.  For each of them one list tells which fields it knows and how their
values are read.
-/

namespace ImageRecipe.Decode

open Yaml

namespace Reading

variable (anchors : List (Nat × Node))

def optionalText : Place → Node → Reading (Option String) :=
  optional anchors (text anchors .string)

def optionalTexts : Place → Node → Reading (Option (List String)) :=
  optional anchors (texts anchors)

/-! ### Labels -/

def labelsFields : Fields Labels.Field :=
  [(Labels.authorsKey, fun place n => .authors <$> texts anchors place n),
    (Labels.versionKey, fun place n => .version <$> optionalText anchors place n),
    (Labels.descriptionKey, fun place n => .description <$> optionalText anchors place n)]

def labels (place : Place) (n : Node) : Reading Labels :=
  Labels.ofFields <$> record anchors .labels (labelsFields anchors) place n

/-! ### Definitions -/

/-- How deep a step of a definition may be nested: the definition and its list of steps count. -/
def stepRoom : Nat := depthLimit - 2

def definitionFields : Fields Definition.Field :=
  [(Definition.baseKey, fun place n => .base <$> optionalText anchors place n),
    (Definition.stepsKey,
      fun place n => .steps <$> list anchors (step anchors stepRoom) place n),
    (Definition.portKey, fun place n => .port <$> optional anchors (port anchors) place n),
    (Definition.entrypointKey,
      fun place n => .entrypoint <$> optionalTexts anchors place n),
    (Definition.commandKey, fun place n => .command <$> optionalTexts anchors place n),
    (Definition.authorKey, fun place n => .author <$> optionalText anchors place n),
    (Definition.labelsKey, fun place n => .labels <$> optional anchors (labels anchors) place n),
    (Definition.volumesKey, fun place n => .volumes <$> texts anchors place n)]

def definition (place : Place) (n : Node) : Reading Definition :=
  Definition.ofFields <$> record anchors .definition (definitionFields anchors) place n

/-! ### Settings -/

/-- A policy that an own tag of the document names; the value under the tag is checked after it. -/
def taggedPolicy (place : Place) (tag : String) (fault : Option Cause) : Reading Policy := do
  let p ← liftM (Decode.policy tag)
  match fault with
  | none => return p
  | some cause => within place (misfit cause)

/-- A policy, as a text or as a tag over a null. -/
def policyNode (place : Place) : Node → Reading Policy
  | .scalar p style t =>
    match localTag? p with
    | none => within place (liftM (Decode.policy t))
    | some tag =>
      taggedPolicy place tag <|
        if style = .plain ∧ (t.isEmpty ∨ isNull t.toList) then none
        else some (.wrongValue (.text t) .null)
  | .sequence p _ =>
    match localTag? p with
    | none => within place (misfit (.wrongType .sequence .localTag))
    | some tag => taggedPolicy place tag (some (.wrongType .sequence .unit))
  | .mapping p _ =>
    match localTag? p with
    | none => within place (misfit (.wrongType .mapping .localTag))
    | some tag => taggedPolicy place tag (some (.wrongType .mapping .unit))
  | _ => throw .malformed

def policy (place : Place) : Node → Reading Policy
  | .alias number => within place do policyNode place (← follow anchors (.alias number))
  | n => policyNode place n

def settingsFields : Fields Settings.Field :=
  [(Settings.shellKey, fun place n => .shell <$> text anchors .string place n),
    (Settings.policyKey, fun place n => .policy <$> policy anchors place n),
    (Settings.quietKey, fun place n => .quiet <$> bool anchors place n)]

def settings (place : Place) (n : Node) : Reading Settings :=
  Settings.ofFields <$> record anchors .settings (settingsFields anchors) place n

end Reading

end ImageRecipe.Decode
