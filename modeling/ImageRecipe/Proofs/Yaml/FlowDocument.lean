import ImageRecipe.Proofs.Yaml.Complete
import ImageRecipe.Proofs.Yaml.Document
import ImageRecipe.Proofs.Yaml.Flow
import ImageRecipe.Proofs.Yaml.KeptText

/-!
# The document of compact JSON

`load_compact`: read as YAML, the compact JSON of a record is the document of
that record with each text as YAML hears it, and no complete document at all if
YAML refuses one of them.
-/

namespace ImageRecipe.Yaml

open Json

/-! ### The characters that are written -/

theorem all_json (c : Char) : (Json.escape c).all isAllowed = isReadable c := by
  rcases Json.escape_cases c with ⟨a, he, -, -, ha⟩ | ⟨he, hlt⟩ | ⟨he, -, -, hle⟩ <;> rw [he]
  · unfold Json.unescape at ha
    split at ha <;> cases ha <;> decide
  · have hcontrol : c < ' ' := hlt
    have hdigits : (Number.hexDigits 'a' 4 c.toNat).all isAllowed = true :=
      List.all_eq_true.mpr fun _ hc => isAllowed_of_mem_hexDigits (.inl rfl) hc
    have hmarks : isAllowed '\\' = true ∧ isAllowed 'u' = true := by decide
    simp [isReadable, hcontrol, hdigits, hmarks]
  · have hnot : ¬c < ' ' := Nat.not_lt_of_le hle
    simp [isReadable, hnot]

theorem all_quoted (s : List Char) : (quoted s).all isAllowed = s.all isReadable := by
  have hquote : isAllowed '"' = true := by decide
  have hinside : (s.flatMap Json.escape).all isAllowed = s.all isReadable := by
    simp only [List.all_flatMap, all_json]
  simp [quoted, hquote, hinside]

theorem all_name {k : List Char} (hk : KeyText k) : (quoted k).all isAllowed = true := by
  rw [all_quoted, List.all_eq_true]
  intro c hc
  simp [isReadable, isAllowed_of_isPrintable (isPrintable_of_isKeyChar (hk.chars c hc))]

mutual

/-- A value is heard if all its characters are allowed and none of its texts is refused. -/
theorem traverse_heard (v : Value) (hv : Writable v) : v.traverse heard
    = if (compactChars v).all isAllowed then v.traverse heardText else none := by
  match v with
  | .none => rfl
  | .flag true => rfl
  | .flag false => rfl
  | .number n => simp [compactChars, Value.traverse, all_decimal]
  | .text s =>
    simp only [compactChars, Value.traverse, all_quoted, heard]
    split <;> rfl
  | .list items =>
    have hmarks : isAllowed '[' = true ∧ isAllowed ']' = true := by decide
    have hall : (compactChars (.list items)).all isAllowed
        = (joined true (compactItems items)).all isAllowed := by
      simp [compactChars, array, intercalate_eq_joined, hmarks]
    rw [hall, Value.traverse, traverseItems_heard true items hv, Value.traverse]
    split <;> rfl
  | .record fields =>
    have hmarks : isAllowed '\x7b' = true ∧ isAllowed '\x7d' = true := by decide
    have hall : (compactChars (.record fields)).all isAllowed
        = (joined true (compactFields fields)).all isAllowed := by
      simp [compactChars, object, intercalate_eq_joined, hmarks]
    rw [hall, Value.traverse, traverseFields_heard true fields hv.2, Value.traverse]
    split <;> rfl

theorem traverseItems_heard (first : Bool) (vs : List Value) (hvs : WritableItems vs) :
    Value.traverseItems heard vs = if (joined first (compactItems vs)).all isAllowed
      then Value.traverseItems heardText vs else none := by
  match vs with
  | [] => rfl
  | v :: vs =>
    have hcomma : isAllowed ',' = true := by decide
    have hall : (joined first (compactItems (v :: vs))).all isAllowed
        = ((compactChars v).all isAllowed && (joined false (compactItems vs)).all isAllowed) := by
      cases first <;> simp [compactItems, joined, hcomma]
    rw [hall, Value.traverseItems, Value.traverseItems, traverse_heard v hvs.2.1,
      traverseItems_heard false vs hvs.2.2]
    cases (compactChars v).all isAllowed <;> cases (joined false (compactItems vs)).all isAllowed <;>
      simp

theorem traverseFields_heard (first : Bool) (fs : List (String × Value))
    (hfs : WritableFields fs) :
    Value.traverseFields heard fs = if (joined first (compactFields fs)).all isAllowed
      then Value.traverseFields heardText fs else none := by
  match fs with
  | [] => rfl
  | (k, v) :: fs =>
    have hmarks : isAllowed ',' = true ∧ isAllowed ':' = true := by decide
    have hall : (joined first (compactFields ((k, v) :: fs))).all isAllowed
        = ((compactChars v).all isAllowed && (joined false (compactFields fs)).all isAllowed) := by
      cases first <;> simp [compactFields, joined, hmarks, all_name hfs.1]
    rw [hall, Value.traverseFields, Value.traverseFields, traverse_heard v hfs.2.1,
      traverseFields_heard false fs hfs.2.2]
    cases (compactChars v).all isAllowed <;>
      cases (joined false (compactFields fs)).all isAllowed <;> simp

end

/-! ### Tokens -/

namespace Scan

/-- The end of the text is the last token. -/
theorem At.finish {s : Scan} {allowed : Bool} {tokens : List Token} (h : At s [] 0 allowed tokens) :
    ∃ t, s.step = some t ∧ t.tokens = .streamEnd :: tokens := by
  obtain ⟨t, ht, -, -, hstep⟩ := h.step_eq (by simp [Content])
  have houter : t.outer = [] := List.length_eq_zero_iff.mp ht.depth_eq
  have hend : ∀ c : Cursor, c.rest = [] → At { t with cursor := c } [] 0 allowed tokens :=
    fun c hc => { ht with rest_eq := hc }
  have hfinish : ∃ c, t.token
      = some ({ t with cursor := c, key := none, keyAllowed := false }.push .streamEnd) := by
    rw [token, ht.rest_eq]
    simp only [Scan.finish]
    split
    · have hat := hend t.cursor ht.rest_eq
      exact ⟨t.cursor, by rw [closeBlocks_of_indents hat.indents, hat.dropKey.1]; rfl⟩
    · have hat := hend { t.cursor with column := 0, line := t.cursor.line + 1 } ht.rest_eq
      exact ⟨_, by rw [closeBlocks_of_indents hat.indents, hat.dropKey.1]; rfl⟩
  obtain ⟨c, hc⟩ := hfinish
  refine ⟨{ t with cursor := c, key := none, keyAllowed := false }.push .streamEnd, ?_,
    congrArg (Token.streamEnd :: ·) ht.tokens_eq⟩
  rw [hstep, hc, Option.bind_some]
  simp [refreshKeys, Scan.push, Scan.refresh, houter]

theorem mem_of_mem_settled {s : Scan} {t : Token} (h : t ∈ s.settled) : t ∈ s.tokens :=
  List.mem_reverse.mp (List.mem_of_mem_take h)

/-- The scan of a record from its first bracket to its last. -/
theorem meets_record {fields : List (String × Value)} (hfields : WritableFields fields) :
    Meets { cursor := { rest := compactChars (.record fields) } }
      ((Value.record fields).traverse heardText)
      fun w t => At t [] 0 false (flowTokens w).reverse := by
  have htext : compactChars (.record fields)
      = '\x7b' :: (joined true (compactFields fields) ++ '\x7d' :: []) := by
    simp [compactChars, object, intercalate_eq_joined]
  have hstart : At { cursor := { rest := compactChars (.record fields) } }
      ('\x7b' :: (joined true (compactFields fields) ++ '\x7d' :: [])) 0 true [] :=
    ⟨htext, rfl, droppable_none, by simp, rfl, rfl, rfl, rfl, by simp⟩
  obtain ⟨t, hst, ht⟩ := hstart.opening (.inr ⟨rfl, rfl⟩)
  refine hst.meets ((At.fields true fields hfields ht).map ?_)
  intro ws u hu
  simpa [flowTokens] using hu

end Scan

/-- **The tokens of a record in compact JSON**: those of what YAML hears, to the end of the text,
or some that break off before it. -/
theorem tokens_compact {fields : List (String × Value)} (hv : Writable (.record fields)) :
    (∀ w, (Value.record fields).traverse heard = some w →
      tokens (compact (.record fields)).toList = flowTokens w ++ [.streamEnd]) ∧
    ((Value.record fields).traverse heard = none →
      .streamEnd ∉ tokens (compact (.record fields)).toList) := by
  have hmeets := Scan.meets_record hv.2
  rw [compact, String.toList_ofList, traverse_heard _ hv, tokens]
  cases (compactChars (.record fields)).all isAllowed with
  | false => simp
  | true =>
    simp only [if_true]
    constructor
    · intro w hw
      rw [hw] at hmeets
      obtain ⟨t, hst, ht⟩ := hmeets
      obtain ⟨u, hstep, hu⟩ := ht.finish
      rw [hst.run_eq hstep (by rw [hu]; rfl) (Nat.lt_succ_self _), hu]
      simp
    · intro hw hend
      rw [hw] at hmeets
      obtain ⟨t, hst, hstep, hnot⟩ := hmeets
      rw [hst.run_eq_settled hstep (Nat.lt_succ_self _)] at hend
      exact hnot (Scan.mem_of_mem_settled hend)

/-! ### Nodes -/

def Hand.json : Hand :=
  ⟨.quoted, fun _ => .quoted, fun _ h => by cases h⟩

variable {handles : Handles} {names : List (List Char × Nat)} {fuel : Nat} {r : List Token}

theorem node_flowList {block inMapping : Bool} :
    node handles block inMapping (fuel + 1) ⟨.flowSequenceStart :: r, names⟩
      = (flowItems handles true fuel ⟨r, names⟩).map (.sequence {}) id := by
  simp [node, takeProperties, numbered, Prod.map]

theorem node_flowRecord {block inMapping : Bool} :
    node handles block inMapping (fuel + 1) ⟨.flowMappingStart :: r, names⟩
      = (flowEntries handles true fuel ⟨r, names⟩).map (.mapping {}) id := by
  simp [node, takeProperties, numbered, Prod.map]

theorem flowItems_end (first : Bool) :
    flowItems handles first (fuel + 1) ⟨.flowSequenceEnd :: r, names⟩ = ([], ⟨r, names⟩) := by
  simp [flowItems]

theorem flowEntries_end (first : Bool) :
    flowEntries handles first (fuel + 1) ⟨.flowMappingEnd :: r, names⟩ = ([], ⟨r, names⟩) := by
  simp [flowEntries]

theorem flowItems_cons (first : Bool) {t : Token} (hkey : t ≠ .key)
    (hend : t ≠ .flowSequenceEnd) :
    flowItems handles first (fuel + 1) ⟨(if first then [] else [.flowEntry]) ++ t :: r, names⟩
      = let (item, f) := node handles false false fuel ⟨t :: r, names⟩
        let (items, f) := flowItems handles false fuel f
        (item :: items, f) := by
  cases first <;> simp [flowItems, hkey, hend]

theorem flowEntries_cons (first : Bool) (k : List Char) {t : Token}
    (hends : endsFlowNode t = false) :
    flowEntries handles first (fuel + 2)
        ⟨(if first then [] else [.flowEntry]) ++ .key :: .scalar .quoted k :: .value :: t :: r,
          names⟩
      = let (value, f) := node handles false false (fuel + 1) ⟨t :: r, names⟩
        let (entries, f) := flowEntries handles false (fuel + 1) f
        ((.scalar {} .quoted (String.ofList k), value) :: entries, f) := by
  have hkey : endsFlowNode (.scalar .quoted k) = false := rfl
  cases first <;> simp [flowEntries, hkey, hends, node_scalar]

theorem flowTokens_eq_cons (v : Value) : ∃ t r, flowTokens v = t :: r ∧
    t ≠ .key ∧ t ≠ .flowSequenceEnd ∧ endsFlowNode t = false := by
  cases v with
  | flag b => cases b <;> exact ⟨_, _, rfl, by simp [endsFlowNode]⟩
  | none | number | text | list | record => exact ⟨_, _, rfl, by simp [endsFlowNode]⟩

mutual

/-- **The node of a value is read from its tokens.** -/
theorem node_flowTokens (v : Value) {block inMapping : Bool} {fuel : Nat} {rest : List Token}
    (hfuel : 2 * (flowTokens v).length < fuel) :
    node handles block inMapping fuel ⟨flowTokens v ++ rest, names⟩
      = (Hand.json.node v, ⟨rest, names⟩) := by
  obtain ⟨fuel, rfl⟩ := Nat.exists_eq_succ_of_ne_zero (Nat.ne_of_gt (Nat.zero_lt_of_lt hfuel))
  match v with
  | .none => exact node_scalar .plain _
  | .flag true => exact node_scalar .plain _
  | .flag false => exact node_scalar .plain _
  | .number n => exact node_scalar .plain _
  | .text s =>
    refine (node_scalar .quoted s.toList).trans ?_
    rw [String.ofList_toList]
    rfl
  | .list items =>
    have htokens : flowTokens (.list items) ++ rest
        = .flowSequenceStart :: (flowItemsTokens true items ++ .flowSequenceEnd :: rest) := by
      simp [flowTokens]
    have hlen : 2 * (flowItemsTokens true items).length + 1 < fuel := by
      simp only [flowTokens, List.length_cons, List.length_append] at hfuel
      omega
    have hitems : flowItems handles true fuel
        ⟨flowItemsTokens true items ++ .flowSequenceEnd :: rest, names⟩
          = (Hand.json.itemNodes items, ⟨rest, names⟩) := flowItems_flowTokens true items hlen
    rw [htokens]
    exact node_flowList.trans (congrArg (Prod.map (Node.sequence {}) id) hitems)
  | .record fields =>
    have htokens : flowTokens (.record fields) ++ rest
        = .flowMappingStart :: (flowFieldsTokens true fields ++ .flowMappingEnd :: rest) := by
      simp [flowTokens]
    have hlen : 2 * (flowFieldsTokens true fields).length + 1 < fuel := by
      simp only [flowTokens, List.length_cons, List.length_append] at hfuel
      omega
    have hfields : flowEntries handles true fuel
        ⟨flowFieldsTokens true fields ++ .flowMappingEnd :: rest, names⟩
          = (Hand.json.fieldNodes fields, ⟨rest, names⟩) :=
      flowEntries_flowTokens true fields hlen
    rw [htokens]
    exact node_flowRecord.trans (congrArg (Prod.map (Node.mapping {}) id) hfields)

theorem flowItems_flowTokens (first : Bool) (items : List Value) {fuel : Nat} {rest : List Token}
    (hfuel : 2 * (flowItemsTokens first items).length + 1 < fuel) :
    flowItems handles first fuel ⟨flowItemsTokens first items ++ .flowSequenceEnd :: rest, names⟩
      = (Hand.json.itemNodes items, ⟨rest, names⟩) := by
  obtain ⟨fuel, rfl⟩ := Nat.exists_eq_succ_of_ne_zero (Nat.ne_of_gt (Nat.zero_lt_of_lt hfuel))
  match items with
  | [] => exact flowItems_end first
  | v :: items =>
    obtain ⟨t, r, hr, hkey, hend, -⟩ := flowTokens_eq_cons v
    have htokens : flowItemsTokens first (v :: items) ++ .flowSequenceEnd :: rest
        = (if first then [] else [.flowEntry])
          ++ t :: (r ++ (flowItemsTokens false items ++ .flowSequenceEnd :: rest)) := by
      simp [flowItemsTokens, hr]
    have hpos : 0 < (flowTokens v).length := by simp [hr]
    have hlen : 2 * (flowTokens v).length < fuel ∧
        2 * (flowItemsTokens false items).length + 1 < fuel := by
      simp only [flowItemsTokens, List.length_append] at hfuel
      omega
    have hitem : node handles false false fuel
        ⟨flowTokens v ++ (flowItemsTokens false items ++ .flowSequenceEnd :: rest), names⟩
          = (Hand.json.node v, ⟨flowItemsTokens false items ++ .flowSequenceEnd :: rest, names⟩) :=
      node_flowTokens v hlen.1
    rw [hr, List.cons_append] at hitem
    rw [htokens, flowItems_cons first hkey hend, hitem]
    simp only [flowItems_flowTokens false items hlen.2]
    rfl

theorem flowEntries_flowTokens (first : Bool) (fields : List (String × Value)) {fuel : Nat}
    {rest : List Token} (hfuel : 2 * (flowFieldsTokens first fields).length + 1 < fuel) :
    flowEntries handles first fuel
        ⟨flowFieldsTokens first fields ++ .flowMappingEnd :: rest, names⟩
      = (Hand.json.fieldNodes fields, ⟨rest, names⟩) := by
  obtain ⟨fuel, rfl⟩ := Nat.exists_eq_succ_of_ne_zero (Nat.ne_of_gt (Nat.zero_lt_of_lt hfuel))
  match fields with
  | [] => exact flowEntries_end first
  | (k, v) :: fields =>
    obtain ⟨t, r, hr, -, -, hends⟩ := flowTokens_eq_cons v
    have htokens : flowFieldsTokens first ((k, v) :: fields) ++ .flowMappingEnd :: rest
        = (if first then [] else [.flowEntry]) ++ .key :: .scalar .quoted k.toList :: .value
          :: t :: (r ++ (flowFieldsTokens false fields ++ .flowMappingEnd :: rest)) := by
      simp [flowFieldsTokens, hr]
    simp only [flowFieldsTokens, List.length_append, List.length_cons] at hfuel
    obtain ⟨fuel, rfl⟩ : ∃ n, fuel = n + 1 := ⟨fuel - 1, by omega⟩
    have hvalue : node handles false false (fuel + 1)
        ⟨flowTokens v ++ (flowFieldsTokens false fields ++ .flowMappingEnd :: rest), names⟩
          = (Hand.json.node v, ⟨flowFieldsTokens false fields ++ .flowMappingEnd :: rest, names⟩) :=
      node_flowTokens v (by omega)
    have hrest : flowEntries handles false (fuel + 1)
        ⟨flowFieldsTokens false fields ++ .flowMappingEnd :: rest, names⟩
          = (Hand.json.fieldNodes fields, ⟨rest, names⟩) :=
      flowEntries_flowTokens false fields (by omega)
    rw [hr, List.cons_append] at hvalue
    rw [htokens, flowEntries_cons first k.toList hends, hvalue]
    simp only [hrest, String.ofList_toList]
    rfl

end

/-- **The document of a record in compact JSON.** -/
theorem load_compact {fields : List (String × Value)} (hv : Writable (.record fields)) :
    (∀ w, (Value.record fields).traverse heard = some w →
      Document.load (compact (.record fields)) = ⟨Hand.json.node w, true⟩) ∧
    ((Value.record fields).traverse heard = none →
      (Document.load (compact (.record fields))).complete = false) := by
  obtain ⟨htokens, hbroken⟩ := tokens_compact hv
  constructor
  · intro w hw
    have hnode : node defaultHandles true false (4 * (flowTokens w ++ [Token.streamEnd]).length + 4)
        ⟨flowTokens w ++ [.streamEnd], []⟩ = (Hand.json.node w, ⟨[.streamEnd], []⟩) :=
      node_flowTokens w (by simp only [List.length_append]; omega)
    rw [Document.load, htokens w hw]
    obtain ⟨ws, -, rfl⟩ := Option.map_eq_some_iff.mp hw
    have hfeed : Document.ofTokens (flowTokens (.record ws) ++ [.streamEnd])
        = Document.ofFeed defaultHandles ⟨flowTokens (.record ws) ++ [.streamEnd], []⟩ := rfl
    rw [hfeed, Document.ofFeed, hnode]
    rfl
  · intro hw
    rw [Bool.eq_false_iff]
    exact fun h => hbroken hw (Document.mem_of_complete h)

end ImageRecipe.Yaml
