import ImageRecipe.Proofs.Json.Strings

/-!
# Compact JSON read back

`read_compact`: the text of a value is read as `valueTree`, the tree of that
value, to its end.  Only a number does not tell where it ends, so behind a value
must stand what may stand there in a collection; `Stops` says so.  One unit of
fuel for every character is enough.
-/

namespace ImageRecipe.Json

open Number

mutual

def valueTree : Value → Tree
  | .none => .null
  | .flag b => .bool b
  | .number n => .int n
  | .text s => .string s
  | .list items => .array (itemTrees items)
  | .record fields => .object (memberTrees fields)
termination_by structural v => v

def itemTrees : List Value → List Tree
  | [] => []
  | v :: r => valueTree v :: itemTrees r
termination_by structural items => items

def memberTrees : List (String × Value) → List (Tree × Tree)
  | [] => []
  | (k, v) :: r => (.string k, valueTree v) :: memberTrees r
termination_by structural fields => fields

end

mutual

/-- The numbers of a value have 64 bits, so that they are read as whole numbers. -/
def Numbers64 : Value → Prop
  | .number n => n < bits 64
  | .list items => ItemNumbers64 items
  | .record fields => FieldNumbers64 fields
  | _ => True
termination_by structural v => v

def ItemNumbers64 : List Value → Prop
  | [] => True
  | v :: r => Numbers64 v ∧ ItemNumbers64 r
termination_by structural items => items

def FieldNumbers64 : List (String × Value) → Prop
  | [] => True
  | (_, v) :: r => Numbers64 v ∧ FieldNumbers64 r
termination_by structural fields => fields

end

/-! ### Numbers -/

/-- Nothing but the end of an item or of a collection follows. -/
def Stops (r : List Char) : Prop :=
  ∀ c ∈ r.head?, c = ',' ∨ c = ']' ∨ c = '}'

theorem collect_of_isDigit (s : List Char) (n : Nat) (h : Nat.ofDigitChars 10 s n < bits 64) :
    collect n s = (Nat.ofDigitChars 10 s n, s.length) := by
  induction s generalizing n with
  | nil => rfl
  | cons c s ih =>
    rw [Nat.ofDigitChars_cons, Nat.mul_comm] at h ⊢
    have hle : n * 10 + (c.toNat - '0'.toNat)
        ≤ Nat.ofDigitChars 10 s (n * 10 + (c.toNat - '0'.toNat)) := by
      rw [Nat.ofDigitChars_eq_ofDigitChars_zero]
      exact Nat.le_add_right_of_le (Nat.le_mul_of_pos_left _ (Nat.pow_pos (by decide)))
    have hlt : ¬bits 64 ≤ n * 10 + (c.toNat - '0'.toNat) := by omega
    simp only [collect, hlt, if_false, ih _ h, List.length_cons]

theorem collect_decimal {n : Nat} (hn : n < bits 64) :
    collect 0 (decimal n) = (n, (decimal n).length) := by
  have hvalue : Nat.ofDigitChars 10 (decimal n) 0 = n := Nat.ofDigitChars_ten_toDigits
  rw [collect_of_isDigit _ _ (hvalue.symm ▸ hn), hvalue]

/-- The digits of a numeral end where it does. -/
theorem span_decimal (n : Nat) {r : List Char} (hr : Stops r) :
    (decimal n ++ r).takeWhile Char.isDigit = decimal n ∧
      (decimal n ++ r).dropWhile Char.isDigit = r := by
  have hdigits : ∀ c ∈ decimal n, c.isDigit = true := fun _ => isDigit_of_mem_decimal
  rw [List.takeWhile_append_of_pos hdigits, List.dropWhile_append_of_pos hdigits]
  cases r with
  | nil => simp
  | cons c r => rcases hr c rfl with rfl | rfl | rfl <;> simp [List.takeWhile, List.dropWhile]

theorem readNumber_decimal {n : Nat} (hn : n < bits 64) {r : List Char} (hr : Stops r) :
    readNumber (decimal n ++ r) = some (.int n, r) := by
  obtain ⟨htake, hdrop⟩ := span_decimal n hr
  obtain ⟨d, ds, hds⟩ := List.exists_cons_of_ne_nil (decimal_ne_nil n)
  have hunsigned : ((decimal n ++ r).head? == some '-') = false := by
    have hd : d.isDigit = true := isDigit_of_mem_decimal (hds ▸ List.mem_cons_self)
    simp [hds, ne_of_isDigit hd]
  have hwhole : ((decimal n).isEmpty
      || (decimal n).head? == some '0' && (decimal n).length ≠ 1) = false := by
    by_cases hzero : n = 0
    · rw [hzero]
      decide
    · simp [decimal_ne_nil, head_decimal hzero]
  have hfraction : readFraction r = some ([], r) := by
    cases r with
    | nil => rfl
    | cons c r => rcases hr c rfl with rfl | rfl | rfl <;> rfl
  have hexponent : readExponent r = some (none, r) := by
    cases r with
    | nil => rfl
    | cons c r => rcases hr c rfl with rfl | rfl | rfl <;> rfl
  have hnumber : number false (decimal n) [] none = .int n := by
    simp [number, collect_decimal hn]
  simp only [readNumber, hunsigned, Bool.false_eq_true, if_false, htake, hdrop, hwhole, hfraction,
    hexponent, hnumber, bind, Option.bind, pure]

theorem isBlank_of_isDigit {c : Char} (hc : c.isDigit = true) : isBlank c = false := by
  simp [isBlank, ne_of_isDigit hc]

/-! ### Values -/

theorem value_quoted (s : String) (fuel : Nat) (r : List Char) :
    value (fuel + 1) (quoted s.toList ++ r) = (.string s, r) := by
  obtain ⟨ps, hps, hs⟩ := pieces_flatMap_escape s.toList r
  have hquoted : quoted s.toList ++ r = '"' :: (s.toList.flatMap escape ++ '"' :: r) := by
    simp [quoted]
  simp [hquoted, value, isBlank, hps, ofPieces, hs]

theorem value_plain {c : Char} (hc : isBlank c = false) (hopen : c ∉ ['"', '[', '\x7b'])
    (fuel : Nat) (r : List Char) : value (fuel + 1) (c :: r) = readPlain (c :: r) := by
  simp only [List.mem_cons, List.not_mem_nil, or_false, not_or] at hopen
  obtain ⟨hquote, hbracket, hbrace⟩ := hopen
  rw [value, List.dropWhile_cons_of_neg (by simp [hc])]
  split <;> simp_all

theorem value_decimal {n : Nat} (hn : n < bits 64) (fuel : Nat) {r : List Char} (hr : Stops r) :
    value (fuel + 1) (decimal n ++ r) = (.int n, r) := by
  obtain ⟨d, ds, hds⟩ := List.exists_cons_of_ne_nil (decimal_ne_nil n)
  have hd : d.isDigit = true := isDigit_of_mem_decimal (hds ▸ List.mem_cons_self)
  have hopen : d ∉ ['"', '[', '\x7b'] := by
    simp [ne_of_isDigit hd]
  have hwords : (words.find? fun w => w.1.isPrefixOf (d :: (ds ++ r))) = none := by
    have hn : 'n' ≠ d := (ne_of_isDigit hd rfl).symm
    have ht : 't' ≠ d := (ne_of_isDigit hd rfl).symm
    have hf : 'f' ≠ d := (ne_of_isDigit hd rfl).symm
    simp [words, hn, ht, hf]
  have hread := readNumber_decimal hn hr
  rw [hds, List.cons_append] at hread ⊢
  rw [value_plain (isBlank_of_isDigit hd) hopen, readPlain, hwords, hread]
  rfl

/-- How the text of a value starts. -/
theorem compactChars_eq_cons (v : Value) : ∃ c s, compactChars v = c :: s ∧
    isBlank c = false ∧ c ≠ ']' ∧ c ≠ '\x7d' := by
  cases v with
  | number n =>
    obtain ⟨d, ds, hds⟩ := List.exists_cons_of_ne_nil (decimal_ne_nil n)
    have hd : d.isDigit = true := isDigit_of_mem_decimal (hds ▸ List.mem_cons_self)
    exact ⟨d, ds, hds, isBlank_of_isDigit hd, ne_of_isDigit hd rfl, ne_of_isDigit hd rfl⟩
  | flag b => cases b <;> exact ⟨_, _, rfl, rfl, by decide, by decide⟩
  | none | text | list | record => exact ⟨_, _, rfl, rfl, by decide, by decide⟩

/-! ### Collections -/

/-- Items that are already written, with a comma before each but a first one. -/
def joined (first : Bool) : List (List Char) → List Char
  | [] => []
  | x :: xs => (if first then x else ',' :: x) ++ joined false xs

theorem joined_false (xs : List (List Char)) : joined false xs = xs.flatMap (',' :: ·) := by
  induction xs with
  | nil => rfl
  | cons x xs ih => rw [joined, ih, List.flatMap_cons]; rfl

theorem intercalate_eq_joined (xs : List (List Char)) :
    [','].intercalate xs = joined true xs := by
  cases xs with
  | nil => rfl
  | cons x xs => rw [intercalate_comma, joined, joined_false]; rfl

theorem stops_joined (xs : List (List Char)) {close : Char} (hclose : close = ']' ∨ close = '\x7d')
    (r : List Char) : Stops (joined false xs ++ close :: r) := by
  cases xs with
  | nil =>
    rintro c ⟨⟩
    exact .inr hclose
  | cons x xs =>
    rintro c ⟨⟩
    exact .inl rfl

theorem dropWhile_isBlank_cons {c : Char} (h : isBlank c = false) (s : List Char) :
    (c :: s).dropWhile isBlank = c :: s :=
  List.dropWhile_cons_of_neg (by simp [h])

/-- The start of an item that is there is found. -/
theorem nextItem_cons (first : Bool) {c close : Char} (hblank : isBlank c = false)
    (hclose : c ≠ close) (s : List Char) :
    nextItem first close (if first then c :: s else ',' :: c :: s) = some (c :: s) := by
  cases first
  · simp [nextItem, dropWhile_isBlank_cons hblank, hclose]
  · rfl

theorem items_close (first : Bool) (fuel : Nat) (r : List Char) :
    items first (fuel + 1) (']' :: r) = ([], r) := by
  simp [items, isBlank]

theorem items_cons (first : Bool) (fuel : Nat) {c : Char} (hblank : isBlank c = false)
    (hclose : c ≠ ']') (s : List Char) :
    items first (fuel + 1) (if first then c :: s else ',' :: c :: s)
      = let (t, r) := value fuel (c :: s)
        let (ts, r) := items false fuel r
        (t :: ts, r) := by
  have hnext := nextItem_cons first hblank hclose s
  cases first
  · simp only [Bool.false_eq_true, if_false] at hnext ⊢
    rw [items, dropWhile_isBlank_cons rfl]
    simp [hnext]
  · simp only [if_true] at hnext ⊢
    rw [items, dropWhile_isBlank_cons hblank]
    simp [hnext, hclose]

theorem members_close (first : Bool) (fuel : Nat) (r : List Char) :
    members first (fuel + 1) ('\x7d' :: r) = ([], r) := by
  simp [members, isBlank]

theorem members_cons (first : Bool) (fuel : Nat) (k : String) (s : List Char) :
    members first (fuel + 2)
        (if first then quoted k.toList ++ ':' :: s else ',' :: (quoted k.toList ++ ':' :: s))
      = let (v, r) := value (fuel + 1) s
        let (ms, r) := members false (fuel + 1) r
        ((.string k, v) :: ms, r) := by
  have hkey : quoted k.toList ++ ':' :: s
      = '"' :: (k.toList.flatMap escape ++ '"' :: ':' :: s) := by
    simp [quoted]
  have hvalue := value_quoted k fuel (':' :: s)
  have hclose : '"' ≠ '\x7d' := by decide
  have hnext := nextItem_cons first (rfl : isBlank '"' = false) hclose
    (k.toList.flatMap escape ++ '"' :: ':' :: s)
  have hcolon : (':' :: s).dropWhile isBlank = ':' :: s := dropWhile_isBlank_cons rfl s
  rw [hkey] at hvalue ⊢
  cases first
  · simp only [Bool.false_eq_true, if_false] at hnext ⊢
    rw [members, dropWhile_isBlank_cons rfl]
    simp [hnext, hvalue, hcolon]
  · simp only [if_true] at hnext ⊢
    rw [members, dropWhile_isBlank_cons rfl]
    simp [hnext, hvalue, hcolon]

mutual

/-- **The text of a value is read as its tree**, whatever may follow it. -/
theorem value_compactChars (v : Value) (hv : Numbers64 v) {fuel : Nat} {r : List Char}
    (hfuel : (compactChars v).length ≤ fuel) (hr : Stops r) :
    value fuel (compactChars v ++ r) = (valueTree v, r) := by
  obtain ⟨fuel, rfl⟩ : ∃ n, fuel = n + 1 := by
    obtain ⟨c, s, hcs, -⟩ := compactChars_eq_cons v
    rw [hcs] at hfuel
    exact Nat.exists_eq_add_one_of_ne_zero (Nat.ne_of_gt (Nat.lt_of_lt_of_le (by simp) hfuel))
  match v with
  | .none => exact value_plain rfl (by decide) fuel _
  | .flag true => exact value_plain rfl (by decide) fuel _
  | .flag false => exact value_plain rfl (by decide) fuel _
  | .number n => exact value_decimal hv fuel hr
  | .text s => exact value_quoted s fuel r
  | .list items =>
    have htext : compactChars (.list items)
        = '[' :: (joined true (compactItems items) ++ [']']) := by
      rw [compactChars, array, intercalate_eq_joined, List.cons_append]
    have hlength : (joined true (compactItems items)).length < fuel := by
      rw [htext] at hfuel
      simp only [List.length_cons, List.length_append] at hfuel
      omega
    simp [htext, value, isBlank, items_compactItems true items hv hlength, valueTree]
  | .record fields =>
    have htext : compactChars (.record fields)
        = '\x7b' :: (joined true (compactFields fields) ++ ['\x7d']) := by
      rw [compactChars, object, intercalate_eq_joined, List.cons_append]
    have hlength : (joined true (compactFields fields)).length < fuel := by
      rw [htext] at hfuel
      simp only [List.length_cons, List.length_append] at hfuel
      omega
    simp [htext, value, isBlank, members_compactFields true fields hv hlength, valueTree]

theorem items_compactItems (first : Bool) (vs : List Value) (hvs : ItemNumbers64 vs) {fuel : Nat}
    {r : List Char} (hfuel : (joined first (compactItems vs)).length < fuel) :
    items first fuel (joined first (compactItems vs) ++ ']' :: r) = (itemTrees vs, r) := by
  obtain ⟨fuel, rfl⟩ := Nat.exists_eq_succ_of_ne_zero (Nat.ne_of_gt (Nat.zero_lt_of_lt hfuel))
  match vs with
  | [] => exact items_close first fuel r
  | v :: vs =>
    obtain ⟨c, s, hcs, hblank, hclose, -⟩ := compactChars_eq_cons v
    have htext : joined first (compactItems (v :: vs)) ++ ']' :: r
        = if first then c :: (s ++ (joined false (compactItems vs) ++ ']' :: r))
          else ',' :: c :: (s ++ (joined false (compactItems vs) ++ ']' :: r)) := by
      cases first <;> simp [compactItems, joined, hcs]
    have hlength : (compactChars v).length + (joined false (compactItems vs)).length ≤ fuel := by
      cases first <;> simp [compactItems, joined] at hfuel <;> omega
    have hpos : 0 < (compactChars v).length := by simp [hcs]
    rw [htext, items_cons first fuel hblank hclose, ← List.cons_append, ← hcs,
      value_compactChars v hvs.1 (by omega) (stops_joined _ (.inl rfl) r)]
    have hrest : items false fuel (joined false (compactItems vs) ++ ']' :: r)
        = (itemTrees vs, r) := items_compactItems false vs hvs.2 (by omega)
    simp only [hrest]
    rfl

theorem members_compactFields (first : Bool) (fs : List (String × Value)) (hfs : FieldNumbers64 fs)
    {fuel : Nat} {r : List Char} (hfuel : (joined first (compactFields fs)).length < fuel) :
    members first fuel (joined first (compactFields fs) ++ '\x7d' :: r) = (memberTrees fs, r) := by
  match fs with
  | [] =>
    obtain ⟨fuel, rfl⟩ := Nat.exists_eq_succ_of_ne_zero (Nat.ne_of_gt (Nat.zero_lt_of_lt hfuel))
    exact members_close first fuel r
  | (k, v) :: fs =>
    have hlength : (quoted k.toList).length + 1 + (compactChars v).length
        + (joined false (compactFields fs)).length < fuel := by
      cases first <;> simp [compactFields, joined] at hfuel <;> omega
    obtain ⟨fuel, rfl⟩ : ∃ n, fuel = n + 2 := ⟨fuel - 2, by omega⟩
    have htext : joined first (compactFields ((k, v) :: fs)) ++ '\x7d' :: r
        = if first then quoted k.toList ++ ':' :: (compactChars v
              ++ (joined false (compactFields fs) ++ '\x7d' :: r))
          else ',' :: (quoted k.toList ++ ':' :: (compactChars v
              ++ (joined false (compactFields fs) ++ '\x7d' :: r))) := by
      cases first <;> simp [compactFields, joined]
    rw [htext, members_cons first fuel k,
      value_compactChars v hfs.1 (by omega) (stops_joined _ (.inr rfl) r)]
    have hrest : members false (fuel + 1) (joined false (compactFields fs) ++ '\x7d' :: r)
        = (memberTrees fs, r) := members_compactFields false fs hfs.2 (by omega)
    simp only [hrest]
    rfl

end

/-- **Compact JSON is read as the tree of its value**, to its end. -/
theorem read_compact {v : Value} (hv : Numbers64 v) : read (compact v) = (valueTree v, true) := by
  have hvalue : value (2 * (compactChars v).length + 4) (compactChars v ++ [])
      = (valueTree v, []) := value_compactChars v hv (by omega) (by simp [Stops])
  rw [List.append_nil] at hvalue
  simp [read, compact, hvalue]

/-! ### Texts and lists of texts -/

def Tree.texts (xs : List String) : Tree :=
  .array (xs.map .string)

theorem itemNumbers64_texts (xs : List String) : ItemNumbers64 (xs.map .text) := by
  induction xs with
  | nil => trivial
  | cons x xs ih => exact ⟨trivial, ih⟩

theorem compactItems_texts (xs : List String) :
    compactItems (xs.map .text) = xs.map fun x => quoted x.toList := by
  induction xs with
  | nil => rfl
  | cons x xs ih => rw [List.map_cons, compactItems, compactChars, ih, List.map_cons]

theorem itemTrees_texts (xs : List String) : itemTrees (xs.map .text) = xs.map .string := by
  induction xs with
  | nil => rfl
  | cons x xs ih => rw [List.map_cons, itemTrees, valueTree, ih, List.map_cons]

theorem read_string (t : String) : read (string t) = (.string t, true) :=
  read_compact (v := .text t) trivial

theorem read_stringArray (xs : List String) : read (stringArray xs) = (.texts xs, true) := by
  have hcompact : stringArray xs = compact (.texts xs) := by
    rw [stringArray, compact, Value.texts, compactChars, compactItems_texts]
  have hnumbers : Numbers64 (.texts xs) := itemNumbers64_texts xs
  rw [hcompact, read_compact hnumbers, Value.texts, valueTree, itemTrees_texts, Tree.texts]

end ImageRecipe.Json
