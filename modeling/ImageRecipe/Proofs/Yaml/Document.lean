import ImageRecipe.Proofs.Yaml.Tokens
import ImageRecipe.Yaml.Document

/-!
# The document of a written record

`Hand.node` is the node of a value, without anchors and tags, in one hand or
another; in blocks it is `valueNode`.  It is read from the tokens of the value
whatever tokens follow, except that nothing but another item can follow the items
of a list that is indented like its key; `EndsItems` says that none does.  The
readers are run on fuel, of which two for every token are enough.
-/

namespace ImageRecipe.Yaml

/-- The styles in which the keys and the texts of a value are found.  A text without quotes denotes
itself. -/
structure Hand where
  key : Style
  text : List Char → Style
  denotes : ∀ s, text s = .plain → resolve s = .text

mutual

def Hand.node (h : Hand) : Value → Node
  | .none => .scalar {} .plain "null"
  | .flag true => .scalar {} .plain "true"
  | .flag false => .scalar {} .plain "false"
  | .number n => .scalar {} .plain (String.ofList (Number.decimal n))
  | .text s => .scalar {} (h.text s.toList) s
  | .list items => .sequence {} (itemNodes h items)
  | .record fields => .mapping {} (fieldNodes h fields)
termination_by structural v => v

def Hand.itemNodes (h : Hand) : List Value → List Node
  | [] => []
  | v :: r => node h v :: itemNodes h r
termination_by structural items => items

def Hand.fieldNodes (h : Hand) : List (String × Value) → List (Node × Node)
  | [] => []
  | (k, v) :: r => (.scalar {} h.key k, node h v) :: fieldNodes h r
termination_by structural fields => fields

end

def Hand.block : Hand :=
  ⟨.plain, textStyle, fun _ => resolve_of_plain⟩

abbrev valueNode : Value → Node :=
  Hand.block.node

abbrev itemNodes : List Value → List Node :=
  Hand.block.itemNodes

abbrev fieldNodes : List (String × Value) → List (Node × Node) :=
  Hand.block.fieldNodes

/-! ### One step of each reader -/

section

variable {handles : Handles} {block inMapping : Bool} {fuel : Nat}
  {names : List (List Char × Nat)} {t : Token} {r : List Token}

theorem node_scalar (style : Style) (text : List Char) :
    node handles block inMapping (fuel + 1) ⟨.scalar style text :: r, names⟩
      = (.scalar {} style (String.ofList text), ⟨r, names⟩) := by
  simp [node, takeProperties, numbered]

theorem node_emptyList :
    node handles block inMapping (fuel + 2) ⟨.flowSequenceStart :: .flowSequenceEnd :: r, names⟩
      = (.sequence {} [], ⟨r, names⟩) := by
  simp [node, takeProperties, numbered, flowItems]

theorem node_openItems :
    node handles block true (fuel + 1) ⟨.blockEntry :: r, names⟩
      = ((openItems handles fuel ⟨.blockEntry :: r, names⟩).map (.sequence {}) id) := by
  simp [node, takeProperties, numbered, Prod.map]

theorem node_mapping :
    node handles true inMapping (fuel + 1) ⟨.blockMappingStart :: r, names⟩
      = ((blockEntries handles fuel ⟨r, names⟩).map (.mapping {}) id) := by
  simp [node, takeProperties, numbered, Prod.map]

theorem openItems_cons (ht : t ≠ .blockEntry) (hends : endsBlockNode t = false) :
    openItems handles (fuel + 1) ⟨.blockEntry :: t :: r, names⟩
      = let (item, f) := node handles true false fuel ⟨t :: r, names⟩
        let (items, f) := openItems handles fuel f
        (item :: items, f) := by
  simp [openItems, ht, hends]

theorem openItems_stop (ht : t ≠ .blockEntry) :
    openItems handles (fuel + 1) ⟨t :: r, names⟩ = ([], ⟨t :: r, names⟩) := by
  rw [openItems]
  split
  · next h => exact absurd h (List.cons_ne_nil t r)
  · next h => exact absurd (List.cons.inj h).1 ht
  · rfl

theorem blockEntries_cons (k : List Char) (hends : endsBlockNode t = false) :
    blockEntries handles (fuel + 2) ⟨.key :: .scalar .plain k :: .value :: t :: r, names⟩
      = let (value, f) := node handles true true (fuel + 1) ⟨t :: r, names⟩
        let (entries, f) := blockEntries handles (fuel + 1) f
        ((.scalar {} .plain (String.ofList k), value) :: entries, f) := by
  have hkey : endsBlockNode (.scalar .plain k) = false := rfl
  rw [blockEntries]
  simp only [hkey, hends, node_scalar, Bool.false_eq_true, if_false]

theorem blockEntries_end :
    blockEntries handles (fuel + 1) ⟨.blockEnd :: r, names⟩ = ([], ⟨r, names⟩) := by
  simp [blockEntries]

end

/-! ### All values -/

/-- The tokens do not go on with another item. -/
def EndsItems (ts : List Token) : Prop :=
  ∃ t r, ts = t :: r ∧ t ≠ .blockEntry

theorem valueTokens_eq_cons (v : Value) : ∃ t r, valueTokens v = t :: r ∧
    endsBlockNode t = false ∧ (¬IsFullList v → t ≠ .blockEntry) := by
  cases v with
  | none => exact ⟨_, _, rfl, rfl, by simp⟩
  | flag b => cases b <;> exact ⟨_, _, rfl, rfl, by simp⟩
  | number n => exact ⟨_, _, rfl, rfl, by simp⟩
  | text s => exact ⟨_, _, rfl, rfl, by simp [scalarToken]⟩
  | list items =>
    cases items with
    | nil => exact ⟨_, _, rfl, rfl, by simp⟩
    | cons v items => exact ⟨_, _, rfl, rfl, fun h => absurd trivial h⟩
  | record fields => exact ⟨_, _, rfl, rfl, by simp⟩

theorem endsItems_fieldsTokens (fields : List (String × Value)) (rest : List Token) :
    EndsItems (fieldsTokens fields ++ .blockEnd :: rest) := by
  cases fields with
  | nil => exact ⟨_, _, rfl, by simp⟩
  | cons f fields => exact ⟨_, _, rfl, by simp⟩

variable {handles : Handles} {names : List (List Char × Nat)}

mutual

/-- **The node of a value is read from its tokens.** -/
theorem node_valueTokens (v : Value) (hv : Writable v) {inMapping : Bool} {fuel : Nat}
    {rest : List Token} (hfuel : 2 * (valueTokens v).length < fuel)
    (hlist : IsFullList v → inMapping = true ∧ EndsItems rest) :
    node handles true inMapping fuel ⟨valueTokens v ++ rest, names⟩
      = (valueNode v, ⟨rest, names⟩) := by
  obtain ⟨fuel, rfl⟩ := Nat.exists_eq_succ_of_ne_zero (Nat.ne_of_gt (Nat.zero_lt_of_lt hfuel))
  match v with
  | .none => exact node_scalar .plain _
  | .flag true => exact node_scalar .plain _
  | .flag false => exact node_scalar .plain _
  | .number n => exact node_scalar .plain _
  | .text s =>
    refine (node_scalar (textStyle s.toList) s.toList).trans ?_
    rw [String.ofList_toList]
    rfl
  | .list [] =>
    obtain ⟨fuel, rfl⟩ : ∃ n, fuel = n + 1 := ⟨fuel - 1, by simp [valueTokens] at hfuel; omega⟩
    exact node_emptyList
  | .list (v :: items) =>
    obtain ⟨rfl, hrest⟩ := hlist trivial
    have hpos : fuel ≠ 0 := by
      simp only [valueTokens, List.length_cons] at hfuel
      omega
    have hitems := openItems_itemsTokens (v :: items) hv (Nat.le_of_lt_succ hfuel) hpos hrest
    exact node_openItems.trans (congrArg (Prod.map (Node.sequence {}) id) hitems)
  | .record fields =>
    have hlen : 2 * (fieldsTokens fields).length < fuel := by
      simp only [valueTokens, List.length_cons, List.length_append] at hfuel
      omega
    have hfields : blockEntries handles fuel ⟨fieldsTokens fields ++ .blockEnd :: rest, names⟩
        = (fieldNodes fields, ⟨rest, names⟩) := blockEntries_fieldsTokens fields hv.2 hlen
    have htokens : valueTokens (.record fields) ++ rest
        = .blockMappingStart :: (fieldsTokens fields ++ .blockEnd :: rest) := by
      simp [valueTokens]
    rw [htokens]
    exact node_mapping.trans (congrArg (Prod.map (Node.mapping {}) id) hfields)

theorem openItems_itemsTokens (items : List Value) (hitems : WritableItems items) {fuel : Nat}
    {rest : List Token} (hfuel : 2 * (itemsTokens items).length ≤ fuel) (hpos : fuel ≠ 0)
    (hrest : EndsItems rest) :
    openItems handles fuel ⟨itemsTokens items ++ rest, names⟩
      = (itemNodes items, ⟨rest, names⟩) := by
  obtain ⟨fuel, rfl⟩ := Nat.exists_eq_succ_of_ne_zero hpos
  match items with
  | [] =>
    obtain ⟨t, r, rfl, ht⟩ := hrest
    exact openItems_stop ht
  | v :: items =>
    obtain ⟨hfull, hv, hitems⟩ := hitems
    obtain ⟨t, r, hr, hends, hentry⟩ := valueTokens_eq_cons v
    have htokens : itemsTokens (v :: items) ++ rest
        = .blockEntry :: t :: (r ++ (itemsTokens items ++ rest)) := by
      simp [itemsTokens, hr]
    have hlen : 2 * (valueTokens v).length < fuel ∧ 2 * (itemsTokens items).length ≤ fuel ∧
        fuel ≠ 0 := by
      simp only [itemsTokens, List.length_cons, List.length_append] at hfuel
      omega
    have hitem : node handles true false fuel
        ⟨valueTokens v ++ (itemsTokens items ++ rest), names⟩
          = (valueNode v, ⟨itemsTokens items ++ rest, names⟩) :=
      node_valueTokens v hv hlen.1 fun h => absurd h hfull
    rw [hr, List.cons_append] at hitem
    rw [htokens, openItems_cons (hentry hfull) hends, hitem]
    simp only [openItems_itemsTokens items hitems hlen.2.1 hlen.2.2 hrest]
    rfl

theorem blockEntries_fieldsTokens (fields : List (String × Value)) (hfields : WritableFields fields)
    {fuel : Nat} {rest : List Token} (hfuel : 2 * (fieldsTokens fields).length < fuel) :
    blockEntries handles fuel ⟨fieldsTokens fields ++ .blockEnd :: rest, names⟩
      = (fieldNodes fields, ⟨rest, names⟩) := by
  obtain ⟨fuel, rfl⟩ := Nat.exists_eq_succ_of_ne_zero (Nat.ne_of_gt (Nat.zero_lt_of_lt hfuel))
  match fields with
  | [] => exact blockEntries_end
  | (k, v) :: fields =>
    obtain ⟨-, hv, hfields⟩ := hfields
    obtain ⟨t, r, hr, hends, -⟩ := valueTokens_eq_cons v
    have htokens : fieldsTokens ((k, v) :: fields) ++ .blockEnd :: rest
        = .key :: .scalar .plain k.toList :: .value :: t
          :: (r ++ (fieldsTokens fields ++ .blockEnd :: rest)) := by
      simp [fieldsTokens, hr]
    simp only [fieldsTokens, List.length_cons, List.length_append] at hfuel
    obtain ⟨fuel, rfl⟩ : ∃ n, fuel = n + 1 := ⟨fuel - 1, by omega⟩
    have hvalue : node handles true true (fuel + 1)
        ⟨valueTokens v ++ (fieldsTokens fields ++ .blockEnd :: rest), names⟩
          = (valueNode v, ⟨fieldsTokens fields ++ .blockEnd :: rest, names⟩) :=
      node_valueTokens v hv (by omega) fun _ => ⟨rfl, endsItems_fieldsTokens fields rest⟩
    have hrest : blockEntries handles (fuel + 1)
        ⟨fieldsTokens fields ++ .blockEnd :: rest, names⟩
          = (fieldNodes fields, ⟨rest, names⟩) :=
      blockEntries_fieldsTokens fields hfields (by omega)
    rw [hr, List.cons_append] at hvalue
    rw [htokens, blockEntries_cons k.toList hends, hvalue]
    simp only [hrest, String.ofList_toList]
    rfl

end

/-- **The document of a written record.** -/
theorem load_block {fields : List (String × Value)} (hv : Writable (.record fields)) :
    Document.load (block (.record fields)) = ⟨valueNode (.record fields), true⟩ := by
  have hnode : node defaultHandles true false
      (4 * (valueTokens (.record fields) ++ [Token.streamEnd]).length + 4)
      ⟨valueTokens (.record fields) ++ [.streamEnd], []⟩
        = (valueNode (.record fields), ⟨[.streamEnd], []⟩) :=
    node_valueTokens _ hv (by simp only [List.length_append]; omega) False.elim
  rw [Document.load, tokens_block hv]
  have hfeed : Document.ofTokens (valueTokens (.record fields) ++ [.streamEnd])
      = Document.ofFeed defaultHandles ⟨valueTokens (.record fields) ++ [.streamEnd], []⟩ := rfl
  rw [hfeed, Document.ofFeed, hnode]
  rfl

end ImageRecipe.Yaml
