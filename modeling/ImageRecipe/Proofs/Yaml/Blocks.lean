import ImageRecipe.Proofs.Number.Digits
import ImageRecipe.Proofs.Yaml.Marks

/-!
# Written values and their tokens

`valueTokens` lists the tokens of a value, and `Scan.Ready.value` says that the
scanner finds them in the text of the value, whatever follows it, provided that
it is not indented deeper.  The induction is on the value; a list or a record
is read item by item, and what follows an item is the next one or what follows
the collection.
-/

namespace ImageRecipe.Yaml

/-! ### Values that are written unambiguously -/

/-- A list with something in it. -/
def IsFullList : Value → Prop
  | .list (_ :: _) => True
  | _ => False

mutual

/-- Records are not empty and have keys that need no quotes, and no list has another one as an
item. -/
def Writable : Value → Prop
  | .list items => WritableItems items
  | .record fields => fields ≠ [] ∧ WritableFields fields
  | _ => True
termination_by structural v => v

def WritableItems : List Value → Prop
  | [] => True
  | v :: r => ¬IsFullList v ∧ Writable v ∧ WritableItems r
termination_by structural items => items

def WritableFields : List (String × Value) → Prop
  | [] => True
  | (k, v) :: r => KeyText k.toList ∧ Writable v ∧ WritableFields r
termination_by structural fields => fields

end

mutual

def valueTokens : Value → List Token
  | .none => [.scalar .plain "null".toList]
  | .flag true => [.scalar .plain "true".toList]
  | .flag false => [.scalar .plain "false".toList]
  | .number n => [.scalar .plain (Number.decimal n)]
  | .text s => [scalarToken s.toList]
  | .list [] => [.flowSequenceStart, .flowSequenceEnd]
  | .list (v :: r) => .blockEntry :: (valueTokens v ++ itemsTokens r)
  | .record fields => .blockMappingStart :: (fieldsTokens fields ++ [.blockEnd])
termination_by structural v => v

def itemsTokens : List Value → List Token
  | [] => []
  | v :: r => .blockEntry :: (valueTokens v ++ itemsTokens r)
termination_by structural items => items

def fieldsTokens : List (String × Value) → List Token
  | [] => []
  | (k, v) :: r =>
    .key :: .scalar .plain k.toList :: .value :: (valueTokens v ++ fieldsTokens r)
termination_by structural fields => fields

end

/-! ### Words without quotes -/

theorem endsPlain_of_notMem {s : List Char} (hcolon : ':' ∉ s) (hspace : ' ' ∉ s) :
    endsPlain s = false := by
  induction s with
  | nil => rfl
  | cons c s ih =>
    simp only [List.mem_cons, not_or] at hcolon hspace
    rw [endsPlain, ih hcolon.2 hspace.2]
    simp [Ne.symm hcolon.1, Ne.symm hspace.1]

/-- The characters of plain words: letters and digits of ASCII, and the marks `_`, `.`, `+` and
`-`. -/
def isWordChar (c : Char) : Bool :=
  isKeyChar c || c == '+' || c == '-'

structure PlainWord (s : List Char) : Prop where
  chars : ∀ c ∈ s, isWordChar c = true
  start : ∃ c ∈ s.head?, c.isAlphanum = true

instance : DecidablePred PlainWord := fun s =>
  decidable_of_iff (s.all isWordChar = true ∧ s.head?.any Char.isAlphanum = true)
    ⟨fun h => ⟨List.all_eq_true.mp h.1, (Option.any_eq_true _ _).mp h.2⟩,
      fun h => ⟨List.all_eq_true.mpr h.chars, (Option.any_eq_true _ _).mpr h.start⟩⟩

section

variable {c : Char}

theorem isWordChar_iff : isWordChar c = true ↔ isKeyChar c = true ∨ c = '+' ∨ c = '-' := by
  simp [isWordChar, or_assoc]

theorem isBreak_of_isWordChar (h : isWordChar c = true) : isBreak c = false := by
  rcases isWordChar_iff.mp h with hc | rfl | rfl
  · exact isBreak_of_isKeyChar hc
  all_goals decide

theorem isPrintable_of_isWordChar (h : isWordChar c = true) : isPrintable c = true := by
  rcases isWordChar_iff.mp h with hc | rfl | rfl
  · exact isPrintable_of_isKeyChar hc
  all_goals decide

end

/-- What is made of these characters needs no quotes, unless its start is taken for something
else. -/
theorem fitsPlain_of_isWordChar {s : List Char} (hs : ∀ c ∈ s, isWordChar c = true)
    (hstart : startsIndicator s = false) : fitsPlain s = true := by
  have hall : ∀ c ∈ s, (isPrintable c && !isBreak c) = true := by
    intro c hc
    rw [isPrintable_of_isWordChar (hs c hc), isBreak_of_isWordChar (hs c hc)]
    rfl
  have hnot {d : Char} (hd : isWordChar d = false) : d ∉ s :=
    fun hmem => ne_of_class (hs d hmem) hd rfl
  have hspace : ' ' ∉ s := hnot (by decide)
  have hhead : s.head? ≠ some ' ' := fun h => hspace (List.mem_of_mem_head? h)
  have hlast : s.getLast? ≠ some ' ' := fun h => hspace (List.mem_of_mem_getLast? h)
  simp only [fitsPlain, List.all_eq_true.mpr hall, hstart, endsPlain_of_notMem (hnot (by decide))
    hspace, bne_iff_ne.mpr hhead, bne_iff_ne.mpr hlast, Bool.not_false, Bool.and_self]

namespace PlainWord

variable {s : List Char}

theorem exists_cons (h : PlainWord s) : ∃ c r, s = c :: r ∧ c.isAlphanum = true := by
  obtain ⟨c, hc, halnum⟩ := h.start
  cases s with
  | nil => cases hc
  | cons x r =>
    obtain rfl : x = c := by simpa using hc
    exact ⟨x, r, rfl, halnum⟩

theorem notMem (h : PlainWord s) {c : Char} (hc : isWordChar c = false) : c ∉ s :=
  fun hmem => ne_of_class (h.chars c hmem) hc rfl

/-- A plain word needs no quotes. -/
theorem fitsPlain (h : PlainWord s) : fitsPlain s = true := by
  refine fitsPlain_of_isWordChar h.chars ?_
  obtain ⟨c, r, rfl, hc⟩ := h.exists_cons
  have hdash : c ≠ '-' := ne_of_class hc (by decide)
  have hquestion : c ≠ '?' := ne_of_class hc (by decide)
  have hpoint : c ≠ '.' := ne_of_class hc (by decide)
  have hindicator := isIndicator_of_isKeyChar (isKeyChar_of_isAlphanum hc)
  simp [startsIndicator, hindicator, hdash, hquestion, hpoint]

end PlainWord

theorem plainWord_decimal (n : Nat) : PlainWord (Number.decimal n) where
  chars c hc := by
    have halnum := isAlphanum_of_isDigit (Number.isDigit_of_mem_decimal hc)
    exact isWordChar_iff.mpr (.inl (isKeyChar_of_isAlphanum halnum))
  start := by
    obtain ⟨c, r, hr⟩ := List.exists_cons_of_ne_nil (Number.decimal_ne_nil n)
    have hmem : c ∈ Number.decimal n := hr ▸ List.mem_cons_self
    exact ⟨c, by simp [hr], isAlphanum_of_isDigit (Number.isDigit_of_mem_decimal hmem)⟩

theorem fitsPlain_decimal (n : Nat) : fitsPlain (Number.decimal n) = true :=
  (plainWord_decimal n).fitsPlain

/-! ### The text of a collection -/

theorem blockChars_list (n : Nat) (v : Value) (items : List Value) :
    blockChars n (.list (v :: items))
      = '-' :: ' ' :: (blockChars (n + 2) v ++ itemsChars n items) := rfl

theorem blockChars_record (n : Nat) (key : String) (v : Value) (fields : List (String × Value)) :
    blockChars n (.record ((key, v) :: fields))
      = key.toList ++ afterKey n v ++ blockChars (valueColumn n v) v ++ fieldsChars n fields := rfl

/-- A list is written the same with its first item on the line of something else. -/
theorem itemsChars_eq {items : List Value} (h : items ≠ []) (n : Nat) :
    itemsChars n items = spaces n ++ blockChars n (.list items) := by
  cases items with
  | nil => exact absurd rfl h
  | cons v items => exact List.append_assoc _ _ _

/-- So is a record with its first field. -/
theorem fieldsChars_eq {fields : List (String × Value)} (h : fields ≠ []) (n : Nat) :
    fieldsChars n fields = spaces n ++ blockChars n (.record fields) := by
  obtain ⟨⟨k, v⟩, fields, rfl⟩ := List.exists_cons_of_ne_nil h
  have hchars : fieldsChars n ((k, v) :: fields) = spaces n ++ k.toList ++ afterKey n v
      ++ blockChars (valueColumn n v) v ++ fieldsChars n fields := rfl
  rw [hchars, blockChars_record]
  simp only [List.append_assoc]

/-! ### How values start -/

theorem content_of_fitsPlain {s : List Char} (h : fitsPlain s = true) (r : List Char) :
    Content (s ++ r) := by
  obtain ⟨x, t, ht, hx⟩ := Scan.PlainStart.of_fitsPlain h r
  have hall : ∀ c ∈ s, isPrintable c = true := by
    simp only [fitsPlain, Bool.and_eq_true, List.all_eq_true] at h
    intro c hc
    exact (h.1.1.1.1 c hc).1
  rw [ht]
  refine content_cons.mpr ⟨hx.unspaced, hx.unbroken, ?_, ?_⟩
  · exact (ne_of_class (show isIndicator '#' = true by decide) hx.unmarked).symm
  · cases s with
    | nil => cases h
    | cons c s =>
      obtain rfl : c = x := (List.cons.inj ht).1
      exact ne_of_class (hall c List.mem_cons_self) (by decide)

theorem content_scalar (n : Nat) (t r : List Char) : Content (scalar n t ++ r) := by
  rcases layout_spec t with ⟨hl, -, hfits⟩ | ⟨hl, -⟩ | hl | ⟨hl, -⟩
  · have htext : scalar n t ++ r = t ++ '\n' :: r := by simp [scalar, hl]
    rw [htext]
    exact content_of_fitsPlain hfits _
  all_goals
    simp only [scalar, hl, List.cons_append]
    exact content_cons.mpr (by decide)

theorem content_key {k : List Char} (hk : KeyText k) (r : List Char) : Content (k ++ r) := by
  obtain ⟨x, k, rfl⟩ := List.exists_cons_of_ne_nil hk.nonempty
  have hx := hk.chars x List.mem_cons_self
  exact content_cons.mpr ⟨isSpace_of_isKeyChar hx, isBreak_of_isKeyChar hx,
    ne_of_class hx (by decide), ne_of_class hx (by decide)⟩

theorem content_blockChars {v : Value} (hv : Writable v) (n : Nat) (r : List Char) :
    Content (blockChars n v ++ r) := by
  cases v with
  | none => exact content_cons.mpr (by decide)
  | flag b => cases b <;> exact content_cons.mpr (by decide)
  | number k =>
    have hnumber : blockChars n (.number k) = Number.decimal k ++ ['\n'] := rfl
    rw [hnumber, List.append_assoc]
    exact content_of_fitsPlain (fitsPlain_decimal k) _
  | text s => exact content_scalar n s.toList r
  | list items => cases items <;> exact content_cons.mpr (by decide)
  | record fields =>
    cases fields with
    | nil => exact absurd rfl hv.1
    | cons f fields =>
      obtain ⟨k, v⟩ := f
      rw [blockChars_record, List.append_assoc, List.append_assoc, List.append_assoc]
      exact content_key hv.2.1 _

namespace Scan

variable {s : Scan} {p k n : Nat} {allowed : Bool} {indents : List Nat} {tokens : List Token}
  {r : List Char}

/-! ### Values of one line or one scalar -/

/-- A plain scalar as a value. -/
theorem Ready.plain {w : List Char} (h : Ready s (w ++ ['\n'] ++ (spaces k ++ r)) n allowed
    (p :: indents) tokens) (hw : fitsPlain w = true) (hr : Content r) (hk : k ≤ p) (hn : p < n) :
    ∃ t, Leads s t ∧ Ready t r k true (p :: indents) (.scalar .plain w :: tokens) := by
  rw [List.append_assoc, List.singleton_append] at h
  exact h.leads (by simpa using hn.le) (by simp) fun i l key hkey =>
    token_plain_fits hw hr hk hn hkey i l

/-- A text as a value. -/
theorem Ready.text {w : List Char} (h : Ready s (scalar (p + 2) w ++ (spaces k ++ r)) n allowed
    (p :: indents) tokens) (hr : Content r) (hk : k ≤ p) (hn : p < n) :
    ∃ t, Leads s t ∧ Ready t r k true (p :: indents) (scalarToken w :: tokens) :=
  h.leads (by simpa using hn.le) (by simp [scalarToken]) fun i l key hkey =>
    token_scalar w hr hk hn hkey i l

/-! ### All values -/

/-- Behind the colon of a key at column `p` the value starts, on the same line or on the next. -/
theorem ready_afterKey {v : Value} (hr : Content r) (i l : Nat) {c : Nat} (hc : p < c) :
    ∃ n allowed, Ready
        (outside ⟨(if startsLine v then '\n' :: spaces (valueColumn p v) else [' ']) ++ r, i, l, c⟩
          indents none false tokens) r n allowed indents tokens ∧
      (startsLine v = true → n = valueColumn p v ∧ allowed = true) ∧
      (startsLine v = false → p < n) := by
  cases hv : startsLine v with
  | true =>
    exact ⟨_, _, (lands_newline hr false (valueColumn p v) i l c).ready droppable_none,
      fun _ => ⟨rfl, rfl⟩, by simp⟩
  | false =>
    exact ⟨_, _, (lands_content hr false 1 i l c).ready droppable_none, by simp,
      fun _ => by omega⟩

theorem endsWord_afterKey (v : Value) (r : List Char) :
    endsWord ((if startsLine v then '\n' :: spaces (valueColumn p v) else [' ']) ++ r) = true := by
  cases startsLine v <;> rfl

theorem valueColumn_of_not_isFullList {v : Value} (hv : ¬IsFullList v) (p : Nat) :
    valueColumn p v = p + 2 := by
  unfold valueColumn
  split
  · exact absurd trivial hv
  · rfl

mutual

/-- **The tokens of a value are found in its text.** -/
theorem Ready.value (v : Value) {s : Scan} {p k n : Nat} {allowed : Bool} {indents : List Nat}
    {tokens : List Token} {r : List Char} (hv : Writable v) (hr : Content r) (hk : k ≤ p)
    (h : Ready s (blockChars (valueColumn p v) v ++ (spaces k ++ r)) n allowed (p :: indents)
      tokens)
    (hline : startsLine v = true → n = valueColumn p v ∧ allowed = true)
    (hword : startsLine v = false → p < n) :
    ∃ t, Leads s t ∧ Ready t r k true (p :: indents) ((valueTokens v).reverse ++ tokens) := by
  match v with
  | .none => exact h.plain (by decide) hr hk (hword rfl)
  | .flag true => exact h.plain (by decide) hr hk (hword rfl)
  | .flag false => exact h.plain (by decide) hr hk (hword rfl)
  | .number m => exact h.plain (fitsPlain_decimal m) hr hk (hword rfl)
  | .text w => exact h.text hr hk (hword rfl)
  | .list [] => exact h.emptyList hr (hword rfl)
  | .list (v :: items) =>
    obtain ⟨rfl, rfl⟩ := hline rfl
    exact Ready.items (v :: items) (List.cons_ne_nil v items) hv hr hk h
  | .record fields =>
    match fields, hv with
    | f :: fields, hv =>
      obtain ⟨rfl, rfl⟩ := hline rfl
      have hstart : p < p + 2 := Nat.lt_add_of_pos_right Nat.two_pos
      obtain ⟨t, hst, ht⟩ := Ready.fields (f :: fields) hv.1 hv.2 hr (hk.trans hstart.le)
        (.first (by simp)) h
      have hclose := ht.close (Nat.lt_of_le_of_lt hk hstart)
      exact ⟨t, hst, by simpa [valueTokens] using hclose⟩

/-- A list reads item by item. -/
theorem Ready.items (items : List Value) {s : Scan} {p k : Nat} {indents : List Nat}
    {tokens : List Token} {r : List Char} (hne : items ≠ []) (hitems : WritableItems items)
    (hr : Content r) (hk : k ≤ p)
    (h : Ready s (blockChars p (.list items) ++ (spaces k ++ r)) p true (p :: indents) tokens) :
    ∃ t, Leads s t ∧
      Ready t r k true (p :: indents) ((valueTokens (.list items)).reverse ++ tokens) := by
  match items with
  | [] => exact absurd rfl hne
  | v :: items =>
    have htext : blockChars p (.list (v :: items)) ++ (spaces k ++ r)
        = '-' :: ' ' :: (blockChars (valueColumn p v) v
          ++ (itemsChars p items ++ (spaces k ++ r))) := by
      simp [blockChars_list, valueColumn_of_not_isFullList hitems.1]
    rw [htext] at h
    obtain ⟨t, hst, ht⟩ := h.entry (content_blockChars hitems.2.1 _ _)
    have hline : startsLine v = true → p + 2 = valueColumn p v ∧ true = true := fun _ =>
      ⟨(valueColumn_of_not_isFullList hitems.1 p).symm, rfl⟩
    have hword : startsLine v = false → p < p + 2 := fun _ => Nat.lt_add_of_pos_right Nat.two_pos
    cases items with
    | nil =>
      obtain ⟨u, htu, hu⟩ := Ready.value v hitems.2.1 hr hk ht hline hword
      exact ⟨u, hst.trans htu, by simpa [valueTokens, itemsTokens] using hu⟩
    | cons w items =>
      rw [itemsChars_eq (List.cons_ne_nil w items), List.append_assoc] at ht
      have hnext := content_blockChars (v := .list (w :: items)) hitems.2.2 p (spaces k ++ r)
      obtain ⟨u, htu, hu⟩ := Ready.value v hitems.2.1 hnext le_rfl ht hline hword
      obtain ⟨x, hux, hx⟩ := Ready.items (w :: items) (List.cons_ne_nil w items) hitems.2.2 hr hk hu
      exact ⟨x, (hst.trans htu).trans hux, by simpa [valueTokens, itemsTokens] using hx⟩

/-- A record reads field by field. -/
theorem Ready.fields (fields : List (String × Value)) {s : Scan} {q k : Nat}
    {indents indents' : List Nat} {tokens tokens' : List Token} {r : List Char}
    (hne : fields ≠ []) (hfields : WritableFields fields) (hr : Content r) (hk : k ≤ q)
    (ho : Opens q indents tokens indents' tokens')
    (h : Ready s (blockChars q (.record fields) ++ (spaces k ++ r)) q true indents tokens) :
    ∃ t, Leads s t ∧
      Ready t r k true (q :: indents') ((fieldsTokens fields).reverse ++ tokens') := by
  match fields with
  | [] => exact absurd rfl hne
  | (key, v) :: fields =>
    have htext : blockChars q (.record ((key, v) :: fields)) ++ (spaces k ++ r)
        = key.toList ++ ':' :: ((if startsLine v then '\n' :: spaces (valueColumn q v) else [' '])
          ++ (blockChars (valueColumn q v) v ++ (fieldsChars q fields ++ (spaces k ++ r)))) := by
      simp [blockChars_record, afterKey]
    rw [htext] at h
    obtain ⟨hkey, hv, hfields⟩ := hfields
    obtain ⟨i, l, c, hc, hsc⟩ := h.key hkey (endsWord_afterKey v _) ho
    obtain ⟨n, allowed, hafter, hline, hword⟩ :=
      ready_afterKey (v := v) (content_blockChars hv (valueColumn q v)
        (fieldsChars q fields ++ (spaces k ++ r))) i l hc
    cases fields with
    | nil =>
      obtain ⟨t, hct, ht⟩ := Ready.value v hv hr hk hafter hline hword
      exact ⟨t, hsc.trans hct, by simpa [fieldsTokens] using ht⟩
    | cons f fields =>
      rw [fieldsChars_eq (List.cons_ne_nil f fields), List.append_assoc] at hsc hafter
      have hrest : Writable (.record (f :: fields)) := ⟨List.cons_ne_nil f fields, hfields⟩
      obtain ⟨t, hct, ht⟩ := Ready.value v hv (content_blockChars hrest q (spaces k ++ r)) le_rfl
        hafter hline hword
      obtain ⟨u, htu, hu⟩ := Ready.fields (f :: fields) (List.cons_ne_nil f fields) hfields hr hk
        .next ht
      exact ⟨u, (hsc.trans hct).trans htu, by simpa [fieldsTokens] using hu⟩

end

end Scan

end ImageRecipe.Yaml
