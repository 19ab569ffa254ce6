import ImageRecipe.Proofs.Decode.UnorderedRecords

/-!
# Labels and settings follow few aliases

How many aliases may be followed in a document grows with the document.  In
labels and settings that is always enough: of their fields only the authors are
more than one node, and there can be only one list of authors.
-/

namespace ImageRecipe

open Yaml

/-! ### Nodes with an anchor -/

namespace Yaml.Node

theorem eq_of_mem_anchored {p : Properties} {n m : Node} {a : Nat} (h : (a, m) ∈ anchored p n) :
    m = n := by
  rw [anchored, Option.mem_toList, Option.map_eq_some_iff] at h
  obtain ⟨_, -, h⟩ := h
  exact (Prod.mk.inj h).2.symm

mutual

/-- A node with an anchor is no greater than a node that it lies within. -/
theorem size_le_of_mem_targets {a : Nat} {m : Node} : ∀ {n : Node}, (a, m) ∈ n.targets →
    m.size ≤ n.size
  | .broken, h | .void, h | .alias _, h => by cases h
  | .scalar _ _ _, h => (congrArg size (eq_of_mem_anchored h)).le
  | .sequence _ _, h => by
    rcases List.mem_append.mp h with h | h
    · exact (congrArg size (eq_of_mem_anchored h)).le
    · exact (size_le_of_mem_itemsTargets h).trans (Nat.le_add_right _ _)
  | .mapping _ _, h => by
    rcases List.mem_append.mp h with h | h
    · exact (congrArg size (eq_of_mem_anchored h)).le
    · exact (size_le_of_mem_entriesTargets h).trans (Nat.le_add_right _ _)

theorem size_le_of_mem_itemsTargets {a : Nat} {m : Node} : ∀ {ns : List Node},
    (a, m) ∈ itemsTargets ns → m.size ≤ itemsSize ns
  | [], h => by cases h
  | _ :: _, h => by
    rcases List.mem_append.mp h with h | h
    · exact (size_le_of_mem_targets h).trans (Nat.le_add_right _ _)
    · exact (size_le_of_mem_itemsTargets h).trans (Nat.le_add_left _ _)

theorem size_le_of_mem_entriesTargets {a : Nat} {m : Node} : ∀ {es : List (Node × Node)},
    (a, m) ∈ entriesTargets es → m.size ≤ entriesSize es
  | [], h => by cases h
  | (k, v) :: r, h => by
    rw [entriesTargets, List.append_assoc, List.mem_append, List.mem_append] at h
    rw [entriesSize]
    rcases h with h | h | h
    · have hk := size_le_of_mem_targets h
      omega
    · have hv := size_le_of_mem_targets h
      omega
    · have hr := size_le_of_mem_entriesTargets h
      omega

end

end Yaml.Node

namespace Decode

/-! ### What one entry may cost -/

section Costs

variable {ε φ : Type} {name : φ → String} {size : ε → Nat}

end Costs

namespace Reading

variable {as : List (Nat × Node)} {n m : Node} {place : Place} {c : Nat}

section Record

variable {α φ : Type} {known : List (Nat × Node) → Fields φ} {name : φ → String}
  {make : List φ → α} {expected : Expected} {tag : Option String} {t : String} {es : List Entry}

end Record

end Reading

end Decode

open Decode

end ImageRecipe
