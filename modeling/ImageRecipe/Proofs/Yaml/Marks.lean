import ImageRecipe.Proofs.Yaml.Scalars

/-!
# What collections are written with

The steps of the scanner that read no scalar: a key and its colon, the dash of
an item, and the brackets of an empty list.  A key is only recognised at its
colon, and then the mark before it, and the start of the mapping if it is the
first, are put in where the key began.
-/

namespace ImageRecipe.Yaml

def isKeyChar (c : Char) : Bool :=
  c.isAlphanum || c == '_' || c == '.'

/-- A name that a field of a written record may have; with quotes it is no longer than a key. -/
structure KeyText (k : List Char) : Prop where
  nonempty : k ≠ []
  short : k.length ≤ 1022
  chars : ∀ c ∈ k, isKeyChar c = true
  start : ∀ c ∈ k.head?, c ≠ '.'

/-! ### The characters of keys -/

section

variable {c : Char}

theorem isSpace_of_isKeyChar (h : isKeyChar c = true) : isSpace c = false := by
  have hspace : c ≠ ' ' := ne_of_class h (by decide)
  have htab : c ≠ '\t' := ne_of_class h (by decide)
  simp [isSpace, hspace, htab]

theorem isBreak_of_isKeyChar (h : isKeyChar c = true) : isBreak c = false := by
  rw [Bool.eq_false_iff]
  intro hb
  simp only [isBreak, Bool.or_eq_true, beq_iff_eq] at hb
  rcases hb with (((rfl | rfl) | rfl) | rfl) | rfl <;> exact absurd h (by decide)

theorem isIndicator_of_isKeyChar (h : isKeyChar c = true) : isIndicator c = false := by
  have hmarks : "#,[]\x7b\x7d&*!|>'\"%@\x60".toList.all (!isKeyChar ·) = true := by decide
  rw [isIndicator, List.contains_eq_mem, decide_eq_false_iff_not]
  intro hc
  simpa [h] using List.all_eq_true.mp hmarks c hc

theorem isAlphanum_iff : c.isAlphanum = true ↔ (c.val ≥ 'A'.val ∧ c.val ≤ 'Z'.val) ∨
    (c.val ≥ 'a'.val ∧ c.val ≤ 'z'.val) ∨ (c.val ≥ '0'.val ∧ c.val ≤ '9'.val) := by
  have hupper : c.isUpper = decide (c.val ≥ 'A'.val ∧ c.val ≤ 'Z'.val) := rfl
  have hlower : c.isLower = (decide (c.val ≥ 'a'.val) && decide (c.val ≤ 'z'.val)) := rfl
  have halpha : c.isAlpha = (c.isUpper || c.isLower) := rfl
  simp only [Char.isAlphanum, halpha, hupper, hlower, Char.isDigit, Bool.or_eq_true,
    Bool.and_eq_true, decide_eq_true_eq, or_assoc]

theorem isPrintable_of_isKeyChar (h : isKeyChar c = true) : isPrintable c = true := by
  by_cases hc : c = '_' ∨ c = '.'
  · rcases hc with rfl | rfl <;> decide
  · have hbounds : 48 ≤ c.toNat ∧ c.toNat ≤ 122 := by
      simp only [isKeyChar, Bool.or_eq_true, beq_iff_eq, or_assoc, hc, or_false, isAlphanum_iff,
        UInt32.le_iff_toNat_le] at h
      simp only [UInt32.reduceToNat, Char.reduceVal, Char.toNat_val] at h
      omega
    have hlow : 0x20 ≤ c.toNat := by omega
    have hhigh : c.toNat ≤ 0x7E := by omega
    simp [isPrintable, hlow, hhigh]

theorem isKeyChar_of_isAlphanum (h : c.isAlphanum = true) : isKeyChar c = true := by
  simp [isKeyChar, h]

theorem isAlphanum_of_isDigit (h : c.isDigit = true) : c.isAlphanum = true := by
  simp [Char.isAlphanum, h]

end

namespace Scan

variable {s : Scan} {n : Nat} {allowed : Bool} {indents : List Nat} {tokens : List Token}

/-! ### Letters and digits -/

theorem plainStart_of_isAlphanum {c : Char} (h : c.isAlphanum = true) (r : List Char) :
    PlainStart (c :: r) := by
  have hkey := isKeyChar_of_isAlphanum h
  refine ⟨c, r, rfl, isIndicator_of_isKeyChar hkey, isSpace_of_isKeyChar hkey,
    isBreak_of_isKeyChar hkey, ?_⟩
  rintro (rfl | rfl | rfl) <;> exact absurd h (by decide)

theorem content_of_isAlphanum {c : Char} (h : c.isAlphanum = true) (r : List Char) :
    Content (c :: r) := by
  have hkey := isKeyChar_of_isAlphanum h
  exact content_cons.mpr ⟨isSpace_of_isKeyChar hkey, isBreak_of_isKeyChar hkey,
    ne_of_class h (by decide), ne_of_class h (by decide)⟩

/-! ### Keys -/

theorem plainStart_key {k : List Char} (hk : KeyText k) (r : List Char) :
    PlainStart (k ++ r) ∧ ∀ x ∈ (k ++ r).head?, x ≠ '-' ∧ x ≠ '.' := by
  obtain ⟨x, k, rfl⟩ := List.exists_cons_of_ne_nil hk.nonempty
  have hx := hk.chars x List.mem_cons_self
  refine ⟨⟨x, k ++ r, rfl, isIndicator_of_isKeyChar hx, isSpace_of_isKeyChar hx,
    isBreak_of_isKeyChar hx, ?_⟩, ?_⟩
  · rintro (rfl | rfl | rfl) <;> exact absurd hx (by decide)
  · intro y hy
    obtain rfl : x = y := by simpa using hy
    exact ⟨ne_of_class hx (by decide), hk.start x rfl⟩

/-- Where a key stands in a mapping at column `n`: it opens the mapping inside the collections that
are open, or is one of its other keys.  The last two arguments are the collections around the
mapping and the tokens before the key. -/
inductive Opens (n : Nat) : List Nat → List Token → List Nat → List Token → Prop
  | first {indents : List Nat} {tokens : List Token} : (∀ p ∈ indents.head?, p < n) →
    Opens n indents tokens indents (.blockMappingStart :: tokens)
  | next {indents : List Nat} {tokens : List Token} : Opens n (n :: indents) tokens indents tokens

/-- The colon behind a key puts the marks in their places. -/
theorem value_outside {k : Token} {c : Cursor} {j : Candidate} {indents' : List Nat}
    {tokens' : List Token} (ho : Opens n indents tokens indents' tokens')
    (hn : j.column = n) (hj : j.number = tokens.length) :
    (outside c indents (some j) false (k :: tokens)).value
      = some (outside (c.skip 1) (n :: indents') none false (.value :: k :: .key :: tokens')) := by
  have hinsert : (outside c indents (some j) false (k :: tokens)).insert j.number [.key]
      = outside c indents (some j) false (k :: .key :: tokens) := by
    simp [insert, outside, hj]
  have hmark : (outside c indents (some j) false (k :: .key :: tokens)).insert j.number
      [.blockMappingStart]
        = outside c indents (some j) false (k :: .key :: .blockMappingStart :: tokens) := by
    simp [insert, outside, hj, Nat.add_assoc]
  have hkey : (outside c indents (some j) false (k :: tokens)).key = some j := rfl
  rw [value, hkey]
  simp only [hinsert, hn, openBlock, flow_outside, Bool.false_or, decide_eq_true_eq, hmark]
  cases ho with
  | first hlt =>
    rw [if_neg]
    · rfl
    · cases indents with
      | nil => simp [margin, outside]
      | cons p indents => exact Nat.not_lt.mpr (Nat.succ_le_of_lt (hlt p rfl))
  | next =>
    rw [if_pos (by simp)]
    rfl

theorem Opens.head_le {indents' : List Nat} {tokens' : List Token}
    (ho : Opens n indents tokens indents' tokens') : ∀ p ∈ indents.head?, p ≤ n := by
  cases ho with
  | first hlt => exact fun p hp => Nat.le_of_lt (hlt p hp)
  | next => simp

/-- A key is first read as a scalar, and remembered where it stands. -/
theorem Ready.step_key {k r : List Char} (h : Ready s (k ++ ':' :: r) n true indents tokens)
    (hn : ∀ p ∈ indents.head?, p ≤ n) (hk : KeyText k) (hr : endsWord r = true) :
    ∃ (j : Candidate) (i l : Nat), j.column = n ∧ j.number = tokens.length ∧
      j.expired ⟨':' :: r, i, l, n + k.length⟩ = false ∧
      s.step = some (outside ⟨':' :: r, i, l, n + k.length⟩ indents (some j) false
        (.scalar .plain k :: tokens)) := by
  obtain ⟨i, l, key, hkey, ha⟩ := h.arrive_eq hn
  obtain ⟨hstart, hhead⟩ := plainStart_key hk (':' :: r)
  have hchars : ∀ c ∈ k, isSpace c = false ∧ isBreak c = false ∧ c ≠ ':' := by
    intro c hc
    have hkc := hk.chars c hc
    exact ⟨isSpace_of_isKeyChar hkc, isBreak_of_isKeyChar hkc, ne_of_class hkc (by decide)⟩
  have hfresh : Candidate.expired ⟨indents.head? == some n, tokens.length, i, l, n⟩
      ⟨':' :: r, i + k.length, l, n + k.length⟩ = false := by
    have hshort : k.length ≤ 1024 := hk.short.trans (by decide)
    simp [Candidate.expired, hshort]
  refine ⟨⟨indents.head? == some n, tokens.length, i, l, n⟩, i + k.length, l, rfl, rfl, hfresh, ?_⟩
  have hplain : (outside ⟨k ++ ':' :: r, i, l, n⟩ indents key true tokens).plain
      = some (outside ⟨':' :: r, i + k.length, l, n + k.length⟩ indents
          (some ⟨indents.head? == some n, tokens.length, i, l, n⟩) false
          (.scalar .plain k :: tokens)) := by
    refine plain_outside ?_ (plainScalar_key hchars hr _ i l n)
    simp [saveKey, dropKey, outside, release_of_droppable hkey, flow]
  rw [step_eq, ha, Option.bind_some, token_plain hstart (by simp) (Or.inr hhead), hplain,
    Option.bind_some, refreshKeys_outside, refresh, hfresh]
  rfl

theorem token_colon {r : List Char} (hr : endsWord r = true) {key : Option Candidate}
    {i l : Nat} : (outside ⟨':' :: r, i, l, n⟩ indents key allowed tokens).token
      = (outside ⟨':' :: r, i, l, n⟩ indents key allowed tokens).value := by
  simp [token, startsMarker_of_ne, hr]

/-- The colon shows that it was a key. -/
theorem step_colon {k : Token} {r : List Char} (hr : endsWord r = true) {j : Candidate}
    {i l m : Nat} {indents' : List Nat} {tokens' : List Token}
    (ho : Opens n indents tokens indents' tokens') (hn : j.column = n)
    (hj : j.number = tokens.length) (hfresh : j.expired ⟨':' :: r, i, l, n + m⟩ = false) :
    (outside ⟨':' :: r, i, l, n + m⟩ indents (some j) false (k :: tokens)).step
      = some (outside ⟨r, i + 1, l, n + m + 1⟩ (n :: indents') none false
          (.value :: k :: .key :: tokens')) := by
  have hcolon : Content (':' :: r) := by simp [Content, isSpace, isBreak]
  have htoken : toToken false false ⟨':' :: r, i, l, n + m⟩ = (false, ⟨':' :: r, i, l, n + m⟩) :=
    toToken_content hcolon false false 0 i l (n + m)
  have hrefresh : refresh ⟨':' :: r, i, l, n + m⟩ (some j) = some (some j) := by
    rw [refresh, hfresh, if_neg (by decide)]
  have harrive : arrive (outside ⟨':' :: r, i, l, n + m⟩ indents (some j) false (k :: tokens))
      = some (outside ⟨':' :: r, i, l, n + m⟩ indents (some j) false (k :: tokens)) := by
    have hkeep : ∀ p ∈ indents.head?, decide (p ≤ n + m) = true := by
      intro p hp
      exact decide_eq_true (Nat.le_add_right_of_le (ho.head_le p hp))
    rw [arrive_outside htoken hrefresh, closeBlocks_of_keep hkeep]
  rw [step_eq, harrive, Option.bind_some, token_colon hr, value_outside ho hn hj, Option.bind_some,
    refreshKeys_outside]
  rfl

/-- **A key is two tokens**, and whether it opens a mapping depends on what is open. -/
theorem Ready.key {k r : List Char} (h : Ready s (k ++ ':' :: r) n true indents tokens)
    (hk : KeyText k) (hr : endsWord r = true) {indents' : List Nat} {tokens' : List Token}
    (ho : Opens n indents tokens indents' tokens') :
    ∃ i l c, n < c ∧
      Leads s (outside ⟨r, i, l, c⟩ (n :: indents') none false
        (.value :: .scalar .plain k :: .key :: tokens')) := by
  obtain ⟨j, i, l, hn, hj, hfresh, hstep⟩ := h.step_key ho.head_le hk hr
  have hpos := List.length_pos_iff.mpr hk.nonempty
  have hlen := h.1
  simp only [List.length_append, List.length_cons] at hlen
  refine ⟨i + 1, l, n + k.length + 1, by omega, .head hstep ?_ ?_
    (.single (step_colon hr ho hn hj hfresh) ?_ ?_)⟩
  · simp [outside]
  · simp only [cursor_outside, List.length_cons]
    omega
  · simp [outside]
  · simp

/-! ### Items -/

/-- The dash of an item of a list that is not indented deeper than the mapping around it. -/
theorem Ready.entry {r : List Char} (h : Ready s ('-' :: ' ' :: r) n true (n :: indents) tokens)
    (hr : Content r) :
    ∃ t, Leads s t ∧ Ready t r (n + 2) true (n :: indents) (.blockEntry :: tokens) := by
  refine h.leads (by simp) (by simp) fun i l key hkey => ?_
  have hdrop : (outside ⟨'-' :: ' ' :: r, i, l, n⟩ (n :: indents) key true tokens).dropKey
      = some (outside ⟨'-' :: ' ' :: r, i, l, n⟩ (n :: indents) none true tokens) := by
    simp [dropKey, outside, release_of_droppable hkey]
  have hmarker : startsMarker '-' ('-' :: ' ' :: r) = false := by
    cases r <;> simp [startsMarker]
  have htoken : (outside ⟨'-' :: ' ' :: r, i, l, n⟩ (n :: indents) key true tokens).token
      = (outside ⟨'-' :: ' ' :: r, i, l, n⟩ (n :: indents) key true tokens).blockEntry := by
    simp [token, hmarker, startsMarker_of_ne, endsWord, isSpace]
  refine ⟨⟨' ' :: r, i + 1, l, n + 1⟩, true, none, droppable_none, ?_, by simp, ?_⟩
  · have hopen : openBlock n tokens.length .blockSequenceStart
        (outside ⟨'-' :: ' ' :: r, i, l, n⟩ (n :: indents) key true tokens)
          = outside ⟨'-' :: ' ' :: r, i, l, n⟩ (n :: indents) key true tokens :=
      if_pos (by simp)
    rw [htoken, blockEntry, if_neg (by simp [outside])]
    simp only [cursor_outside]
    rw [show (outside ⟨'-' :: ' ' :: r, i, l, n⟩ (n :: indents) key true tokens).count
      = tokens.length from rfl, hopen, hdrop]
    rfl
  · simpa [spaces, Nat.add_assoc] using lands_content hr true 1 (i + 1) l (n + 1)

/-! ### Empty lists -/

def inside (c : Cursor) (indents : List Nat) (outer : Option Candidate) (tokens : List Token) :
    Scan :=
  { outside c indents none true tokens with outer := [outer] }

theorem refreshKeys_inside {outer : Option Candidate} (h : Droppable outer) (c : Cursor)
    (indents : List Nat) (tokens : List Token) :
    ∃ outer', Droppable outer' ∧ refreshKeys (inside c indents outer tokens)
      = some (inside c indents outer' tokens) := by
  obtain ⟨outer', hrefresh, houter'⟩ := exists_refresh h c
  exact ⟨outer', houter', by
    simp [refreshKeys, inside, outside, hrefresh, show refresh c none = some none from rfl]⟩

theorem openFlow_outside {c : Cursor} {key key' : Option Candidate}
    (hsave : (outside c indents key allowed tokens).saveKey
      = some (outside c indents key' allowed tokens)) :
    (outside c indents key allowed tokens).openFlow .flowSequenceStart
      = some (inside (c.skip 1) indents key' (.flowSequenceStart :: tokens)) := by
  rw [openFlow, hsave]
  rfl

theorem closeFlow_inside (c : Cursor) (outer : Option Candidate) :
    (inside c indents outer tokens).closeFlow .flowSequenceEnd
      = some (outside (c.skip 1) indents outer false (.flowSequenceEnd :: tokens)) := by
  rfl

/-- The step at a closing bracket. -/
theorem step_closeFlow (r : List Char) (i l : Nat) (hn : n ≠ 0) {outer : Option Candidate}
    (houter : Droppable outer) (indents : List Nat) (tokens : List Token) :
    ∃ key, Droppable key ∧
      (inside ⟨']' :: r, i, l, n⟩ indents outer tokens).step
        = some (outside ⟨r, i + 1, l, n + 1⟩ indents key false (.flowSequenceEnd :: tokens)) := by
  have hbracket : Content (']' :: r) := by simp [Content, isSpace, isBreak]
  have hplace : toToken true true ⟨']' :: r, i, l, n⟩ = (true, ⟨']' :: r, i, l, n⟩) :=
    toToken_content hbracket true true 0 i l n
  obtain ⟨outer', houter', hrefresh⟩ := refreshKeys_inside houter ⟨']' :: r, i, l, n⟩
    indents tokens
  have harrive : arrive (inside ⟨']' :: r, i, l, n⟩ indents outer tokens)
      = some (inside ⟨']' :: r, i, l, n⟩ indents outer' tokens) := by
    have hflow : (inside ⟨']' :: r, i, l, n⟩ indents outer tokens).flow = true := rfl
    rw [arrive, hflow]
    simp only [inside, outside] at hrefresh hplace ⊢
    simp [hplace, hrefresh, closeBlocks, flow]
  have htoken : (inside ⟨']' :: r, i, l, n⟩ indents outer' tokens).token
      = (inside ⟨']' :: r, i, l, n⟩ indents outer' tokens).closeFlow .flowSequenceEnd := by
    simp [token, inside, outside, hn]
  obtain ⟨key, hkept, hkey⟩ := exists_refresh houter' ⟨r, i + 1, l, n + 1⟩
  refine ⟨key, hkey, ?_⟩
  rw [step_eq, harrive, Option.bind_some, htoken, closeFlow_inside, Option.bind_some]
  have hskip : Cursor.skip ⟨']' :: r, i, l, n⟩ 1 = ⟨r, i + 1, l, n + 1⟩ := rfl
  rw [hskip, refreshKeys_outside, hkept]
  rfl

/-- An empty list is two tokens. -/
theorem Ready.emptyList {r : List Char} {p k : Nat}
    (h : Ready s ("[]\n".toList ++ (spaces k ++ r)) n allowed (p :: indents) tokens)
    (hr : Content r) (hp : p < n) :
    ∃ t, Leads s t ∧ Ready t r k true (p :: indents)
      (.flowSequenceEnd :: .flowSequenceStart :: tokens) := by
  have htext : "[]\n".toList ++ (spaces k ++ r) = '[' :: ']' :: '\n' :: (spaces k ++ r) := rfl
  rw [htext] at h
  obtain ⟨i, l, key, hkey, ha⟩ := h.arrive_eq (by simpa using hp.le)
  obtain ⟨outer, houter, hsave⟩ := exists_saveKey hkey
    (c := ⟨'[' :: ']' :: '\n' :: (spaces k ++ r), i, l, n⟩) hp indents allowed tokens
  obtain ⟨outer', houter', hrefresh⟩ := refreshKeys_inside houter
    ⟨']' :: '\n' :: (spaces k ++ r), i + 1, l, n + 1⟩ (p :: indents) (.flowSequenceStart :: tokens)
  obtain ⟨key', hkey', hstep⟩ := step_closeFlow ('\n' :: (spaces k ++ r)) (i + 1) l
    (Nat.succ_ne_zero n) houter' (p :: indents) (.flowSequenceStart :: tokens)
  have htoken : (outside ⟨'[' :: ']' :: '\n' :: (spaces k ++ r), i, l, n⟩ (p :: indents) key allowed
      tokens).token = (outside ⟨'[' :: ']' :: '\n' :: (spaces k ++ r), i, l, n⟩ (p :: indents) key
        allowed tokens).openFlow .flowSequenceStart := by
    simp [token, startsMarker_of_ne]
  have hskip : Cursor.skip ⟨'[' :: ']' :: '\n' :: (spaces k ++ r), i, l, n⟩ 1
      = ⟨']' :: '\n' :: (spaces k ++ r), i + 1, l, n + 1⟩ := rfl
  have hfirst : s.step = some (inside ⟨']' :: '\n' :: (spaces k ++ r), i + 1, l, n + 1⟩
      (p :: indents) outer' (.flowSequenceStart :: tokens)) := by
    rw [step_eq, ha, Option.bind_some, htoken, openFlow_outside hsave, Option.bind_some, hskip,
      hrefresh]
  refine ⟨_, .head hfirst ?_ ?_ (.single hstep ?_ ?_), (lands_newline hr _ k _ _ _).ready hkey'⟩
  · simp [inside, outside]
  · have hlen := h.1
    simp only [List.length_cons, inside, outside] at hlen ⊢
    omega
  · simp [outside]
  · simp [inside, outside]

end Scan

end ImageRecipe.Yaml
