import ImageRecipe.Proofs.Decode.AliasCounts
import ImageRecipe.Proofs.Decode.UnorderedSteps

/-!
# Documents as unordered records

`entries_in_any_order` puts together what holds of the decoders: the entries at
the root of a document may stand in any order, with others under unknown names
between them; a known name may come only once; and an entry of a definition, of
labels or of settings may go if it says what is so without it.

Entries of a YAML document are told with what their aliases refer to, so two
documents have the same entries only if their aliases refer to the same nodes.
Which node an alias refers to may depend on where an entry stands, and on any
other entry being there; `aliases_see_other_entries` has an example for each.
Leaving out an entry also leaves less room for following aliases, which is
enough for labels and settings in any case, and by `Definition.aliasesFit` for a
definition without aliases.  That a known name may come only once does not depend
on what aliases refer to.

What is written here has no aliases, so `Definition.ofYaml_block_perm` finds a
definition in its fields however they are ordered.
-/

namespace ImageRecipe

open Decode

namespace Definition

end Definition

/-! ### Written records -/

namespace Yaml

variable (hand : Hand)

mutual

theorem hasAlias_node : ∀ v : Value, (hand.node v).hasAlias = false
  | .none | .flag true | .flag false | .number _ | .text _ => rfl
  | .list items => anyAlias_itemNodes items
  | .record fields => anyEntryAlias_fieldNodes fields

theorem anyAlias_itemNodes : ∀ items : List Value, Node.anyAlias (hand.itemNodes items) = false
  | [] => rfl
  | v :: r => by rw [Hand.itemNodes, Node.anyAlias, hasAlias_node v, anyAlias_itemNodes r]; rfl

theorem anyEntryAlias_fieldNodes : ∀ fields : List (String × Value),
    Node.anyEntryAlias (hand.fieldNodes fields) = false
  | [] => rfl
  | (k, v) :: r => by
    rw [Hand.fieldNodes, Node.anyEntryAlias, hasAlias_node v, anyEntryAlias_fieldNodes r]; rfl

end

mutual

theorem bare_node : ∀ v : Value, (hand.node v).bare = hand.node v
  | .none | .flag true | .flag false | .number _ | .text _ => rfl
  | .list items => by rw [Hand.node, Node.bare, bareItems_itemNodes items]; rfl
  | .record fields => by rw [Hand.node, Node.bare, bareEntries_fieldNodes fields]; rfl

theorem bareItems_itemNodes : ∀ items : List Value,
    Node.bareItems (hand.itemNodes items) = hand.itemNodes items
  | [] => rfl
  | v :: r => by rw [Hand.itemNodes, Node.bareItems, bare_node v, bareItems_itemNodes r]

theorem bareEntries_fieldNodes : ∀ fields : List (String × Value),
    Node.bareEntries (hand.fieldNodes fields) = hand.fieldNodes fields
  | [] => rfl
  | (k, v) :: r => by
    rw [Hand.fieldNodes, Node.bareEntries, bare_node v, bareEntries_fieldNodes r]; rfl

end

/-- The entries of a written record are its fields. -/
theorem rootEntries_block {fields : List (String × Value)} (hv : Writable (.record fields)) :
    RootEntries none (block (.record fields)) ((fieldNodes fields).map (Entry.of [])) := by
  have hload := load_block hv
  refine .of_hasEntries ⟨by rw [hload], ?_, ?_⟩
  · rw [hload]
    exact hasAlias_node .block (.record fields)
  · rw [hload]
    exact bare_node .block (.record fields)

theorem fieldNodes_perm {fs fs' : List (String × Value)} (h : fs.Perm fs') :
    (hand.fieldNodes fs).Perm (hand.fieldNodes fs') := by
  induction h with
  | nil => exact .rfl
  | cons f _ ih => exact ih.cons _
  | swap f g fs => exact .swap _ _ _
  | trans _ _ ih₁ ih₂ => exact ih₁.trans ih₂

theorem writableFields_perm {fs fs' : List (String × Value)} (h : fs.Perm fs') :
    WritableFields fs → WritableFields fs' := by
  induction h with
  | nil => exact id
  | cons f _ ih => exact fun ⟨hk, hv, hfs⟩ => ⟨hk, hv, ih hfs⟩
  | swap f g fs => exact fun ⟨hk, hv, hk', hv', hfs⟩ => ⟨hk', hv', hk, hv, hfs⟩
  | trans _ _ ih₁ ih₂ => exact ih₂ ∘ ih₁

end Yaml

/-- A definition is found in its fields, in whatever order they are written. -/
theorem Definition.ofYaml_block_perm (d : Definition) {fs : List (String × Value)}
    (h : fs.Perm (d.writtenFields.map fun f => (f.1, f.2.1))) :
    ofYaml (Yaml.block (.record fs)) = .ok d := by
  have hd : Yaml.Writable (.record (d.writtenFields.map fun f => (f.1, f.2.1))) :=
    d.writable_toValue
  have hfs : Yaml.Writable (.record fs) := by
    refine ⟨fun hnil => hd.1 ?_, Yaml.writableFields_perm h.symm hd.2⟩
    rwa [hnil, List.nil_perm] at h
  have hp : ((Yaml.fieldNodes fs).map (Yaml.Entry.of [])).Perm ([] ++
      (Yaml.fieldNodes (d.writtenFields.map fun f => (f.1, f.2.1))).map (Yaml.Entry.of [])) :=
    (Yaml.fieldNodes_perm .block h).map _
  exact (unordered_yaml none).1.reread (Yaml.rootEntries_block hd) (Yaml.rootEntries_block hfs) hp
    (List.forall_mem_nil _) d.ofYaml_toYaml

end ImageRecipe
