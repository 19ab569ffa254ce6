import ImageRecipe.Yaml.Token

/-!
# YAML nodes

The tree that a YAML document denotes, before anybody asks what its scalars
mean.  Where the text of a document breaks off, or is no YAML from some place
on, the tree holds `broken` at that place: whoever reads the tree in order
meets everything before the fault first.
-/

namespace ImageRecipe.Yaml

/-- What may stand before a node: the number of its anchor, and its tag. -/
structure Properties where
  anchor : Option Nat := none
  tag : Option String := none
  deriving DecidableEq, Repr

inductive Node where
  /-- From here on there is no YAML. -/
  | broken
  /-- The root of a text without a document. -/
  | void
  /-- The node with an anchor of this number. -/
  | alias (number : Nat)
  | scalar (properties : Properties) (style : Style) (text : String)
  | sequence (properties : Properties) (items : List Node)
  | mapping (properties : Properties) (entries : List (Node × Node))

namespace Node

/-- A place where a node may be left out. -/
def empty : Node :=
  .scalar {} .plain ""

mutual

/-- Whether the fault of the text lies within the node. -/
def isBroken : Node → Bool
  | .broken => true
  | .sequence _ items => anyBroken items
  | .mapping _ entries => anyEntryBroken entries
  | _ => false
termination_by structural n => n

def anyBroken : List Node → Bool
  | [] => false
  | n :: r => isBroken n || anyBroken r
termination_by structural items => items

def anyEntryBroken : List (Node × Node) → Bool
  | [] => false
  | (k, v) :: r => isBroken k || isBroken v || anyEntryBroken r
termination_by structural entries => entries

end

mutual

/-- The number of events that a node consists of: one for a scalar or an alias, and the two ends
of a collection besides what lies between them. -/
def size : Node → Nat
  | .broken => 0
  | .sequence _ items => itemsSize items + if anyBroken items then 1 else 2
  | .mapping _ entries => entriesSize entries + if anyEntryBroken entries then 1 else 2
  | _ => 1
termination_by structural n => n

def itemsSize : List Node → Nat
  | [] => 0
  | n :: r => size n + itemsSize r
termination_by structural items => items

def entriesSize : List (Node × Node) → Nat
  | [] => 0
  | (k, v) :: r => size k + size v + entriesSize r
termination_by structural entries => entries

end

def anchored (p : Properties) (n : Node) : List (Nat × Node) :=
  (p.anchor.map fun a => (a, n)).toList

mutual

/-- The nodes with an anchor, in the order in which they start. -/
def targets : Node → List (Nat × Node)
  | .scalar p s t => anchored p (.scalar p s t)
  | .sequence p items => anchored p (.sequence p items) ++ itemsTargets items
  | .mapping p entries => anchored p (.mapping p entries) ++ entriesTargets entries
  | _ => []
termination_by structural n => n

def itemsTargets : List Node → List (Nat × Node)
  | [] => []
  | n :: r => targets n ++ itemsTargets r
termination_by structural items => items

def entriesTargets : List (Node × Node) → List (Nat × Node)
  | [] => []
  | (k, v) :: r => targets k ++ targets v ++ entriesTargets r
termination_by structural entries => entries

end

end Node

end ImageRecipe.Yaml
