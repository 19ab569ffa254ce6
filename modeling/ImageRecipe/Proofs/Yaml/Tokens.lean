import ImageRecipe.Proofs.Yaml.Blocks

/-!
# The tokens of a written record

`tokens_block` reads the text of a whole record.  A text with a character that
YAML forbids has no tokens at all, so first every character that is written is
allowed: those of the texts because they are printable or escaped, the others
because they are fixed.
-/

namespace ImageRecipe.Yaml

open Number

/-! ### The characters that are written -/

theorem isAllowed_of_isPrintable {c : Char} (h : isPrintable c = true) : isAllowed c = true := by
  by_cases hc : c = '\n'
  · rw [hc]
    decide
  · simp only [isPrintable, Bool.or_eq_true, Bool.and_eq_true, decide_eq_true_eq, beq_iff_eq, hc,
      false_or] at h
    simp only [isAllowed, Bool.or_eq_true, Bool.and_eq_true, decide_eq_true_eq, beq_iff_eq]
    omega

theorem isAllowed_of_mem_hexDigits {letter : Char} (hl : IsHexLetter letter) {c : Char}
    {w n : Nat} (h : c ∈ hexDigits letter w n) : isAllowed c = true := by
  obtain ⟨d, hd, rfl⟩ := exists_of_mem_hexDigits h
  rcases hl with rfl | rfl
  · exact (by decide : ∀ d < 16, isAllowed (if d < 10 then Char.ofNat ('0'.toNat + d)
      else Char.ofNat ('a'.toNat + d - 10)) = true) d hd
  · exact (by decide : ∀ d < 16, isAllowed (if d < 10 then Char.ofNat ('0'.toNat + d)
      else Char.ofNat ('A'.toNat + d - 10)) = true) d hd

theorem isAllowed_of_mem_escapeCode {c x : Char} (h : x ∈ escapeCode c) : isAllowed x = true := by
  have hletter : ∀ p ∈ letterEscapes, isAllowed p.2 = true := by decide
  have hmark : isAllowed 'x' = true ∧ isAllowed 'u' = true ∧ isAllowed 'U' = true := by decide
  by_cases hc : ∃ e, (c, e) ∈ letterEscapes
  · obtain ⟨e, he⟩ := hc
    rw [(letterEscapes_spec _ he).1, List.mem_singleton] at h
    exact h ▸ hletter _ he
  · rw [escapeCode_of_notMem (not_exists.mp hc)] at h
    split at h
    · rcases List.mem_cons.mp h with rfl | h
      · exact hmark.1
      · exact isAllowed_of_mem_hexDigits (.inr rfl) h
    · split at h
      · rcases List.mem_cons.mp h with rfl | h
        · exact hmark.2.1
        · exact isAllowed_of_mem_hexDigits (.inr rfl) h
      · rcases List.mem_cons.mp h with rfl | h
        · exact hmark.2.2
        · exact isAllowed_of_mem_hexDigits (.inr rfl) h

theorem all_escape (c : Char) : (escape c).all isAllowed = true := by
  rw [List.all_eq_true]
  intro x hx
  unfold escape at hx
  split at hx
  · next h =>
    obtain rfl := List.mem_singleton.mp hx
    simp only [Bool.and_eq_true] at h
    exact isAllowed_of_isPrintable h.1.1.1
  · rcases List.mem_cons.mp hx with rfl | hx
    · decide
    · exact isAllowed_of_mem_escapeCode hx

theorem all_spaces (n : Nat) : (spaces n).all isAllowed = true := by
  rw [List.all_eq_true]
  intro c hc
  rw [List.eq_of_mem_replicate hc]
  decide

theorem all_indentation (n : Nat) (b : Bool) : (indentation n b).all isAllowed = true := by
  cases b with
  | false => rfl
  | true => exact all_spaces n

theorem all_isAllowed {s : List Char} (hs : s.all isPrintable = true) :
    s.all isAllowed = true := by
  rw [List.all_eq_true] at hs ⊢
  intro c hc
  exact isAllowed_of_isPrintable (hs c hc)

theorem all_singleBody {s : List Char} (hs : s.all isPrintable = true) (n : Nat) (b : Bool) :
    (singleBody n b s).all isAllowed = true := by
  induction s generalizing b with
  | nil => exact all_indentation n b
  | cons c s ih =>
    rw [List.all_cons, Bool.and_eq_true] at hs
    have hc := isAllowed_of_isPrintable hs.1
    have hquote : isAllowed '\'' = true := by decide
    rw [singleBody]
    split
    · simp [hc, ih hs.2]
    · split <;> simp [all_indentation, hc, hquote, ih hs.2]

theorem all_literalBody {s : List Char} (hs : s.all isPrintable = true) (n : Nat) (b : Bool) :
    (literalBody n b s).all isAllowed = true := by
  induction s generalizing b with
  | nil => cases b <;> rfl
  | cons c s ih =>
    rw [List.all_cons, Bool.and_eq_true] at hs
    have hc := isAllowed_of_isPrintable hs.1
    rw [literalBody]
    split <;> simp [all_indentation, hc, ih hs.2]

theorem all_literalHeader (s : List Char) : (literalHeader s).all isAllowed = true := by
  rw [literalHeader_eq, List.all_append, Bool.and_eq_true]
  constructor
  · cases indentNumber s <;> rfl
  · cases endChomp s <;> rfl

theorem all_scalar (n : Nat) (s : List Char) : (scalar n s).all isAllowed = true := by
  have hends : isAllowed '\'' = true ∧ isAllowed '"' = true ∧ isAllowed '|' = true ∧
      isAllowed '\n' = true := by decide
  rcases layout_spec s with ⟨hl, -, hfits⟩ | ⟨hl, -, hfits⟩ | hl | ⟨hl, -, hfits⟩
  · simp only [fitsPlain, Bool.and_eq_true] at hfits
    have hprintable : s.all isPrintable = true := by
      rw [List.all_eq_true]
      intro c hc
      exact (Bool.and_eq_true_iff.mp (List.all_eq_true.mp hfits.1.1.1.1 c hc)).1
    simp [scalar, hl, all_isAllowed hprintable, hends]
  · simp only [fitsSingle, Bool.and_eq_true] at hfits
    simp [scalar, hl, all_singleBody hfits.1.1, hends]
  · simp [scalar, hl, hends, List.all_flatMap, all_escape]
  · simp only [fitsLiteral, Bool.and_eq_true] at hfits
    simp [scalar, hl, all_literalHeader, all_literalBody hfits.1.1, hends]

theorem all_key {k : List Char} (hk : KeyText k) : k.all isAllowed = true :=
  all_isAllowed (List.all_eq_true.mpr fun c hc => isPrintable_of_isKeyChar (hk.chars c hc))

theorem all_afterKey (n : Nat) (v : Value) : (afterKey n v).all isAllowed = true := by
  have hends : isAllowed ':' = true ∧ isAllowed '\n' = true ∧ isAllowed ' ' = true := by decide
  rw [afterKey]
  cases startsLine v <;> simp [hends, all_spaces]

theorem all_fitsPlain {w : List Char} (hw : fitsPlain w = true) : w.all isAllowed = true := by
  simp only [fitsPlain, Bool.and_eq_true, List.all_eq_true] at hw
  exact all_isAllowed (List.all_eq_true.mpr fun c hc => (hw.1.1.1.1 c hc).1)

theorem all_decimal (n : Nat) : (decimal n).all isAllowed = true :=
  all_fitsPlain (fitsPlain_decimal n)

mutual

/-- All characters of a written value are allowed. -/
theorem all_blockChars (v : Value) (hv : Writable v) (n : Nat) :
    (blockChars n v).all isAllowed = true := by
  match v with
  | .none => rfl
  | .flag true => rfl
  | .flag false => rfl
  | .number m =>
    have hend : isAllowed '\n' = true := by decide
    have hnumber : blockChars n (.number m) = decimal m ++ ['\n'] := rfl
    simp [hnumber, all_decimal, hend]
  | .text s => exact all_scalar n s.toList
  | .list [] => rfl
  | .list (v :: items) =>
    have hdash : isAllowed '-' = true ∧ isAllowed ' ' = true := by decide
    simp [blockChars_list, hdash, all_blockChars v hv.2.1, all_itemsChars items hv.2.2]
  | .record [] => exact absurd rfl hv.1
  | .record ((k, v) :: fields) =>
    obtain ⟨-, hk, hv, hfields⟩ := hv
    simp [blockChars_record, all_key hk, all_afterKey, all_blockChars v hv,
      all_fieldsChars fields hfields]

theorem all_itemsChars (items : List Value) (hitems : WritableItems items) (n : Nat) :
    (itemsChars n items).all isAllowed = true := by
  match items with
  | [] => rfl
  | v :: items =>
    have hdash : isAllowed '-' = true ∧ isAllowed ' ' = true := by decide
    simp [itemsChars, hdash, all_spaces, all_blockChars v hitems.2.1,
      all_itemsChars items hitems.2.2]

theorem all_fieldsChars (fields : List (String × Value)) (hfields : WritableFields fields)
    (n : Nat) : (fieldsChars n fields).all isAllowed = true := by
  match fields with
  | [] => rfl
  | (k, v) :: fields =>
    obtain ⟨hk, hv, hfields⟩ := hfields
    simp [fieldsChars, all_spaces, all_key hk, all_afterKey, all_blockChars v hv,
      all_fieldsChars fields hfields]

end

/-! ### Whole texts -/

namespace Scan

/-- At the end of the text the record ends as well. -/
theorem Ready.finish {s : Scan} {n : Nat} {allowed : Bool} {tokens : List Token}
    (h : Ready s [] n allowed [0] tokens) :
    ∃ c, s.step = some (outside c [] none false (.streamEnd :: .blockEnd :: tokens)) := by
  obtain ⟨i, l, key, hkey, ha⟩ := h.arrive_eq (by simp)
  have hclose (c : Cursor) : closeBlocks (fun _ => false) (outside c [0] key allowed tokens)
      = outside c [] key allowed (.blockEnd :: tokens) := by
    rw [closeBlocks_cons rfl, closeBlocks_of_keep (by simp)]
  have hdrop (c : Cursor) : (outside c [] key allowed (.blockEnd :: tokens)).dropKey
      = some (outside c [] none allowed (.blockEnd :: tokens)) := by
    simp [dropKey, outside, release_of_droppable hkey]
  obtain ⟨c, hfinish⟩ : ∃ c, (outside ⟨[], i, l, n⟩ [0] key allowed tokens).finish
      = some (outside c [] none false (.streamEnd :: .blockEnd :: tokens)) := by
    have hsame (c : Cursor) : ({ outside ⟨[], i, l, n⟩ [0] key allowed tokens with cursor := c } :
        Scan) = outside c [0] key allowed tokens := rfl
    refine ⟨if n = 0 then ⟨[], i, l, n⟩ else ⟨[], i, l + 1, 0⟩, ?_⟩
    simp only [Scan.finish, cursor_outside, hsame, hclose, hdrop, Option.bind_eq_bind,
      Option.bind_some]
    rfl
  refine ⟨c, ?_⟩
  have htoken : (outside ⟨[], i, l, n⟩ [0] key allowed tokens).token
      = (outside ⟨[], i, l, n⟩ [0] key allowed tokens).finish := rfl
  rw [step_eq, ha, Option.bind_some, htoken, hfinish, Option.bind_some, refreshKeys_outside]
  rfl

end Scan

open Scan in
/-- The way from the start of a text to its end, with a mapping open at the first column. -/
theorem tokens_eq {text : List Char} (htext : Content text) (hall : text.all isAllowed = true)
    {ts : List Token} (h : ∀ s, Ready s text 0 true [] [] →
      ∃ t n allowed, Leads s t ∧ Ready t [] n allowed [0] ts) :
    tokens text = ts.reverse ++ [.blockEnd, .streamEnd] := by
  have hready : Ready (outside ⟨spaces 0 ++ text, 0, 0, 0⟩ [] none true []) text 0 true [] [] := by
    have hland := lands_content htext true 0 0 0 0
    exact hland.ready droppable_none
  obtain ⟨t, n, allowed, hst, ht⟩ := h _ hready
  obtain ⟨c, hstep⟩ := ht.finish
  have hrun := hst.run_eq hstep rfl (Nat.lt_succ_self _)
  rw [tokens, if_pos hall]
  exact hrun.trans (by simp [outside])

/-- **The tokens of a written record.** -/
theorem tokens_block {fields : List (String × Value)} (hv : Writable (.record fields)) :
    tokens (block (.record fields)).toList = valueTokens (.record fields) ++ [.streamEnd] := by
  have htext : (block (.record fields)).toList = blockChars 0 (.record fields) ++ [] := by
    simp [block]
  have hall : (blockChars 0 (.record fields) ++ []).all isAllowed = true := by
    simpa using all_blockChars (.record fields) hv 0
  have hread (s : Scan) (hs : s.Ready (blockChars 0 (.record fields) ++ []) 0 true [] []) :
      ∃ t n allowed, Scan.Leads s t ∧
        t.Ready [] n allowed [0] ((fieldsTokens fields).reverse ++ [.blockMappingStart]) := by
    obtain ⟨t, hst, ht⟩ :=
      Scan.Ready.fields fields hv.1 hv.2 content_nil le_rfl (.first (by simp)) hs
    exact ⟨t, 0, true, hst, ht⟩
  rw [htext, tokens_eq (content_blockChars hv 0 []) hall hread]
  simp [valueTokens]

end ImageRecipe.Yaml
