import ImageRecipe.Proofs.Json.Compact
import ImageRecipe.Proofs.Recipe.Texts
import ImageRecipe.Proofs.Yaml.Blocks
import ImageRecipe.Proofs.Yaml.JsonText

/-!
# Compact JSON and its tokens

Compact JSON is YAML in flow style.  `Scan.At` says of a state of the scanner
what is left of the text, how many brackets are open and which tokens it has
made; no block collection is ever open, so nothing else counts.  The scanner
either finds the tokens of a value or is stuck at the first of its texts that
YAML refuses, and `Scan.Meets` states both at once.  The induction is on the
value, with collections read item by item.
-/

namespace ImageRecipe.Yaml

open Json

mutual

def flowTokens : Value → List Token
  | .none => [.scalar .plain "null".toList]
  | .flag true => [.scalar .plain "true".toList]
  | .flag false => [.scalar .plain "false".toList]
  | .number n => [.scalar .plain (Number.decimal n)]
  | .text s => [.scalar .quoted s.toList]
  | .list items => .flowSequenceStart :: (flowItemsTokens true items ++ [.flowSequenceEnd])
  | .record fields => .flowMappingStart :: (flowFieldsTokens true fields ++ [.flowMappingEnd])
termination_by structural v => v

def flowItemsTokens (first : Bool) : List Value → List Token
  | [] => []
  | v :: r => (if first then [] else [.flowEntry]) ++ (flowTokens v ++ flowItemsTokens false r)
termination_by structural items => items

def flowFieldsTokens (first : Bool) : List (String × Value) → List Token
  | [] => []
  | (k, v) :: r => (if first then [] else [.flowEntry])
    ++ .key :: .scalar .quoted k.toList :: .value :: (flowTokens v ++ flowFieldsTokens false r)
termination_by structural fields => fields

end

/-! ### Names -/

section

variable {c : Char}

theorem isGap_of_isKeyChar (h : isKeyChar c = true) : isGap c = false := by
  rw [Bool.eq_false_iff]
  intro hc
  rcases isGap_iff.mp hc with rfl | rfl | rfl | rfl <;> exact absurd h (by decide)

theorem escape_of_isKeyChar (h : isKeyChar c = true) : Json.escape c = [c] := by
  have hne : ∀ d, isKeyChar d = false → c ≠ d := fun d => ne_of_class h
  have hcontrol : ¬c.toNat < 0x20 := by
    intro hlt
    have hnot : ∀ n < 0x20, isKeyChar (Char.ofNat n) = false := by decide
    exact hne _ (hnot _ hlt) (Char.ofNat_toNat c).symm
  rw [Json.escape, if_neg (hne _ (by decide)), if_neg (hne _ (by decide)),
    if_neg (hne _ (by decide)), if_neg (hne _ (by decide)), if_neg (hne _ (by decide)),
    if_neg (hne _ (by decide)), if_neg (hne _ (by decide)), if_neg hcontrol]

end

theorem quoted_of_isKeyChar {k : List Char} (hk : ∀ c ∈ k, isKeyChar c = true) :
    quoted k = '"' :: (k ++ ['"']) := by
  have hescape : k.flatMap Json.escape = k := by
    induction k with
    | nil => rfl
    | cons c k ih =>
      obtain ⟨hc, hk⟩ := List.forall_mem_cons.mp hk
      rw [List.flatMap_cons, escape_of_isKeyChar hc, ih hk, List.singleton_append]
  rw [quoted, hescape, List.cons_append]

theorem quotedRest_name {k : List Char} (hk : ∀ c ∈ k, isKeyChar c = true) (r : List Char)
    (i l : Nat) {c : Nat} (hc : c ≠ 0) : quotedRest true ⟨k ++ '"' :: r, i, l, c⟩
      = some (k, ⟨r, i + k.length + 1, l, c + k.length + 1⟩) := by
  induction k generalizing i c with
  | nil => exact quotedRest_quote r i l c
  | cons x k ih =>
    obtain ⟨hx, hk⟩ := List.forall_mem_cons.mp hk
    have hpiece := quotedChunk_json (isGap_of_isKeyChar hx)
    rw [escape_of_isKeyChar hx] at hpiece
    have hsplit := quotedRest_append hpiece (k ++ '"' :: r) i l
      (Cursor.atMarker_of_ne_zero hc) (by simp)
    rw [List.singleton_append, List.length_singleton] at hsplit
    rw [List.cons_append, hsplit, ih hk (i + 1) (c := c + 1) (Nat.succ_ne_zero c)]
    simp [Nat.add_assoc, Nat.add_comm 1]

/-- **A name is read on its line.** -/
theorem quotedScalar_name {k : List Char} (hk : ∀ c ∈ k, isKeyChar c = true) (r : List Char)
    (i l c : Nat) : quotedScalar true ⟨quoted k ++ r, i, l, c⟩
      = some (k, ⟨r, i + (k.length + 2), l, c + (k.length + 2)⟩) := by
  have hskip : Cursor.skip ⟨quoted k ++ r, i, l, c⟩ 1 = ⟨k ++ '"' :: r, i + 1, l, c + 1⟩ := by
    simp [quoted_of_isKeyChar hk, Cursor.skip]
  rw [quotedScalar, hskip, quotedRest_name hk r _ l (Nat.succ_ne_zero c)]
  simp [Nat.add_assoc, Nat.add_comm 1]

/-! ### Words -/

theorem plainChunk_word {w r : List Char} (hw : ∀ c ∈ w, c.isAlphanum = true) (hr : Stops r) :
    plainChunk true (w ++ r) = some w := by
  induction w with
  | nil =>
    cases r with
    | nil => rfl
    | cons c r => rcases hr c rfl with rfl | rfl | rfl <;> rfl
  | cons c w ih =>
    obtain ⟨hc, hw⟩ := List.forall_mem_cons.mp hw
    have hkey := isKeyChar_of_isAlphanum hc
    have hcolon : c ≠ ':' := ne_of_class hc (by decide)
    have hmark : isFlowMark c = false := by
      rw [Bool.eq_false_iff]
      intro h
      simp only [isFlowMark, Bool.or_eq_true, beq_iff_eq] at h
      rcases h with (((rfl | rfl) | rfl) | rfl) | rfl <;> exact absurd hc (by decide)
    simp [plainChunk, isSpace_of_isKeyChar hkey, isBreak_of_isKeyChar hkey, hcolon, hmark, ih hw]

/-- A word ends before a comma or a bracket. -/
theorem plainScalar_word {w r : List Char} (hw : ∀ c ∈ w, c.isAlphanum = true) (hr : Stops r)
    (margin i l c : Nat) : plainScalar true margin ⟨w ++ r, i, l, c⟩
      = some (w, ⟨r, i + w.length, l, c + w.length⟩, false) := by
  have hsolid : Solid r := by
    intro c hc
    rcases hr c hc with rfl | rfl | rfl <;> decide
  simp only [plainScalar, plainChunk_word hw hr, Option.bind_eq_bind, Option.bind_some,
    Cursor.skip_append, plainRest_solid hsolid]
  simp

namespace Scan

/-! ### States -/

/-- What counts of a state: the rest of the text, the number of open brackets, whether a key may
stand here, and the tokens so far, the last one first. -/
structure At (s : Scan) (rest : List Char) (depth : Nat) (allowed : Bool) (tokens : List Token) :
    Prop where
  rest_eq : s.cursor.rest = rest
  indents : s.indents = []
  key : Droppable s.key
  outer : ∀ k ∈ s.outer, Droppable k
  depth_eq : s.outer.length = depth
  allowed_eq : s.keyAllowed = allowed
  tokens_eq : s.tokens = tokens
  count_eq : s.count = tokens.length
  unended : .streamEnd ∉ tokens

variable {s : Scan} {rest : List Char} {depth : Nat} {allowed : Bool} {tokens : List Token}

theorem At.cursor_eq (h : At s rest depth allowed tokens) :
    s.cursor = ⟨rest, s.cursor.index, s.cursor.line, s.cursor.column⟩ := by
  rw [← h.rest_eq]

theorem exists_mapM_refresh {outer : List (Option Candidate)} (h : ∀ k ∈ outer, Droppable k)
    (c : Cursor) : ∃ outer', outer.mapM (refresh c) = some outer' ∧
      (∀ k ∈ outer', Droppable k) ∧ outer'.length = outer.length := by
  induction outer with
  | nil => exact ⟨[], rfl, by simp, rfl⟩
  | cons k outer ih =>
    obtain ⟨hk, houter⟩ := List.forall_mem_cons.mp h
    obtain ⟨k', hrefresh, hk'⟩ := exists_refresh hk c
    obtain ⟨outer', hmap, hdrop, hlength⟩ := ih houter
    refine ⟨k' :: outer', ?_, List.forall_mem_cons.mpr ⟨hk', hdrop⟩, by simp [hlength]⟩
    simp [hrefresh, hmap]

/-- The token with a number may yet turn out to be a key. -/
def Keyed (s : Scan) (number : Nat) : Prop :=
  ∃ k, s.key = some k ∧ k.number = number ∧ k.expired s.cursor = false

/-- Candidates that are left behind are given up, and none of the others. -/
theorem At.refresh (h : At s rest depth allowed tokens) : ∃ t, s.refreshKeys = some t ∧
    At t rest depth allowed tokens ∧ t.cursor = s.cursor ∧ ∀ n, Keyed s n → Keyed t n := by
  obtain ⟨key, hkey, hdrop⟩ := exists_refresh h.key s.cursor
  obtain ⟨outer, hmap, houter, hlength⟩ := exists_mapM_refresh h.outer s.cursor
  refine ⟨{ s with key, outer }, ?_, { h with
    key := hdrop, outer := houter, depth_eq := hlength.trans h.depth_eq }, rfl, ?_⟩
  · simp [refreshKeys, hkey, hmap]
  · rintro n ⟨k, hk, hn, hfresh⟩
    rw [hk, Scan.refresh, hfresh, if_neg (by decide)] at hkey
    exact ⟨k, (Option.some.inj hkey).symm, hn, hfresh⟩

theorem closeBlocks_of_indents (h : s.indents = []) (keep : Nat → Bool) :
    s.closeBlocks keep = s := by
  obtain ⟨cursor, indents, key, outer, keyAllowed, tokens, count⟩ := s
  obtain rfl : indents = [] := h
  simp [closeBlocks]

/-- **The next step is the token that starts right here.** -/
theorem At.step_eq (h : At s rest depth allowed tokens) (hrest : Content rest) :
    ∃ t, At t rest depth allowed tokens ∧ t.cursor = s.cursor ∧ (∀ n, Keyed s n → Keyed t n) ∧
      s.step = t.token.bind refreshKeys := by
  obtain ⟨t, hrefresh, ht, hcursor, hkeyed⟩ := h.refresh
  have hplace : toToken s.flow s.keyAllowed s.cursor = (s.keyAllowed, s.cursor) := by
    have hcontent := toToken_content (h.rest_eq ▸ hrest) s.flow s.keyAllowed 0 s.cursor.index
      s.cursor.line s.cursor.column
    simpa [spaces] using hcontent
  have harrive : s.arrive = some t := by
    simp [arrive, hplace, hrefresh, closeBlocks_of_indents ht.indents]
  exact ⟨t, ht, hcursor, hkeyed, by rw [Scan.step_eq, harrive, Option.bind_some]⟩

section

variable {rest' : List Char} {depth' : Nat} {allowed' : Bool} {tokens' : List Token}

theorem At.leads_refresh {u : Scan} (h : At s rest depth allowed tokens)
    (hu : At u rest' depth' allowed' tokens') (hstep : s.step = u.refreshKeys)
    (hlt : rest'.length < rest.length) : ∃ t, Leads s t ∧ At t rest' depth' allowed' tokens' ∧
      t.cursor = u.cursor ∧ ∀ n, Keyed u n → Keyed t n := by
  obtain ⟨t, hrefresh, ht, hkeyed⟩ := hu.refresh
  refine ⟨t, .single (hstep.trans hrefresh) ?_ ?_, ht, hkeyed⟩
  · intro hhead
    exact ht.unended (ht.tokens_eq ▸ List.mem_of_mem_head? hhead)
  · rwa [ht.rest_eq, h.rest_eq]

/-- One token takes a state to the next. -/
theorem At.leads (h : At s rest depth allowed tokens) (hrest : Content rest)
    (htoken : ∀ t, At t rest depth allowed tokens →
      ∃ u, t.token = some u ∧ At u rest' depth' allowed' tokens')
    (hlt : rest'.length < rest.length) :
    ∃ t, Leads s t ∧ At t rest' depth' allowed' tokens' := by
  obtain ⟨t, ht, -, -, hstep⟩ := h.step_eq hrest
  obtain ⟨u, hu, hat⟩ := htoken t ht
  rw [hu, Option.bind_some] at hstep
  obtain ⟨v, hlead, hv, -⟩ := h.leads_refresh hat hstep hlt
  exact ⟨v, hlead, hv⟩

end

/-! ### Candidates -/

theorem At.dropKey (h : At s rest depth allowed tokens) :
    s.dropKey = some { s with key := none } ∧
      At { s with key := none } rest depth allowed tokens :=
  ⟨by simp [Scan.dropKey, release_of_droppable h.key], { h with key := droppable_none }⟩

/-- A token that may be a key is remembered. -/
theorem At.saveKey (h : At s rest depth allowed tokens) :
    ∃ key, s.saveKey = some { s with key } ∧ At { s with key } rest depth allowed tokens ∧
      (allowed = true → key = some ⟨false, tokens.length, s.cursor.index, s.cursor.line,
        s.cursor.column⟩) := by
  cases allowed with
  | false => exact ⟨s.key, if_neg (by simp [h.allowed_eq]), h, by simp⟩
  | true =>
    refine ⟨some ⟨false, tokens.length, s.cursor.index, s.cursor.line, s.cursor.column⟩, ?_,
      { h with key := by simp [Droppable] }, fun _ => rfl⟩
    simp [Scan.saveKey, h.allowed_eq, h.dropKey.1, h.indents, h.count_eq]

/-! ### Marks -/

section

variable {c : Char} {r : List Char}

theorem At.take (h : At s (c :: r) depth allowed tokens) {t : Token} (ht : .streamEnd ≠ t) :
    At (s.take t 1) r depth allowed (t :: tokens) :=
  { h with
    rest_eq := by simp [Scan.take, push, Cursor.skip, h.rest_eq]
    tokens_eq := congrArg (t :: ·) h.tokens_eq
    count_eq := congrArg (· + 1) h.count_eq
    unended := by simp [ht, h.unended] }

/-- A bracket opens a level. -/
theorem At.openFlow (h : At s (c :: r) depth allowed tokens) {start : Token}
    (hstart : .streamEnd ≠ start) :
    ∃ t, s.openFlow start = some t ∧ At t r (depth + 1) true (start :: tokens) := by
  obtain ⟨key, hsave, hat, -⟩ := h.saveKey
  have hopen : At { s with key := none, outer := key :: s.outer, keyAllowed := true } (c :: r)
      (depth + 1) true tokens :=
    { h with
      key := droppable_none
      outer := List.forall_mem_cons.mpr ⟨hat.key, h.outer⟩
      depth_eq := congrArg (· + 1) h.depth_eq
      allowed_eq := rfl }
  refine ⟨_, ?_, hopen.take hstart⟩
  rw [Scan.openFlow, hsave]
  rfl

/-- A bracket closes a level. -/
theorem At.closeFlow (h : At s (c :: r) (depth + 1) allowed tokens) {stop : Token}
    (hstop : .streamEnd ≠ stop) :
    ∃ t, s.closeFlow stop = some t ∧ At t r depth false (stop :: tokens) := by
  obtain ⟨k, outer, houter⟩ := List.exists_cons_of_length_eq_add_one h.depth_eq
  obtain ⟨hk, hdrop⟩ := List.forall_mem_cons.mp (houter ▸ h.outer)
  have hdepth : outer.length + 1 = depth + 1 := by simpa [houter] using h.depth_eq
  have hclose : At { s with key := k, outer, keyAllowed := false } (c :: r) depth false tokens :=
    { h with
      key := hk
      outer := hdrop
      depth_eq := Nat.succ.inj hdepth
      allowed_eq := rfl }
  refine ⟨_, ?_, hclose.take hstop⟩
  rw [Scan.closeFlow, h.dropKey.1]
  simp [houter]

/-- A comma stands between two items. -/
theorem At.flowEntry (h : At s (c :: r) depth allowed tokens) :
    ∃ t, s.flowEntry = some t ∧ At t r depth true (.flowEntry :: tokens) := by
  have hnext : At { s with key := none, keyAllowed := true } (c :: r) depth true tokens :=
    { h with key := droppable_none, allowed_eq := rfl }
  refine ⟨_, ?_, hnext.take (by decide)⟩
  rw [Scan.flowEntry, h.dropKey.1]
  rfl

theorem At.flow_eq_true (h : At s rest (depth + 1) allowed tokens) : s.flow = true := by
  obtain ⟨_, _, houter⟩ := List.exists_cons_of_length_eq_add_one h.depth_eq
  simp [flow, houter]

/-- A colon makes a key of the token before it. -/
theorem At.colon {k : Token}
    (h : At s (c :: r) (depth + 1) allowed (k :: tokens)) (hkey : Keyed s tokens.length) :
    ∃ t, s.value = some t ∧ At t r (depth + 1) false (.value :: k :: .key :: tokens) := by
  obtain ⟨j, hkey, hj, -⟩ := hkey
  have hinsert : s.insert j.number [.key]
      = { s with tokens := k :: .key :: tokens, count := s.count + 1 } := by
    simp [insert, h.tokens_eq, h.count_eq, hj]
  have hopen : (s.insert j.number [.key]).openBlock j.column j.number .blockMappingStart
      = s.insert j.number [.key] := by
    have hflow : (s.insert j.number [.key]).flow = true := h.flow_eq_true
    exact if_pos (by simp [hflow])
  have hmark : At { s.insert j.number [.key] with key := none, keyAllowed := false } (c :: r)
      (depth + 1) false (k :: .key :: tokens) :=
    { h with
      key := droppable_none
      allowed_eq := rfl
      tokens_eq := congrArg Scan.tokens hinsert
      count_eq := congrArg (· + 1) h.count_eq
      unended := by simpa using h.unended }
  refine ⟨_, ?_, hmark.take (by decide)⟩
  rw [Scan.value, hkey]
  simp only [hopen]

/-! ### Steps -/

/-- An opening bracket, with its token. -/
theorem At.opening {start : Token} (h : At s (c :: r) depth allowed tokens)
    (hmark : c = '[' ∧ start = .flowSequenceStart ∨ c = '\x7b' ∧ start = .flowMappingStart) :
    ∃ t, Leads s t ∧ At t r (depth + 1) true (start :: tokens) := by
  have hcontent : Content (c :: r) := by
    rcases hmark with ⟨rfl, -⟩ | ⟨rfl, -⟩ <;> exact content_cons.mpr (by decide)
  refine h.leads hcontent ?_ (by simp)
  intro t ht
  have htoken : t.token = t.openFlow start := by
    rcases hmark with ⟨rfl, rfl⟩ | ⟨rfl, rfl⟩ <;> simp [token, ht.rest_eq, startsMarker_of_ne]
  have hstart : .streamEnd ≠ start := by
    rcases hmark with ⟨-, rfl⟩ | ⟨-, rfl⟩ <;> decide
  rw [htoken]
  exact ht.openFlow hstart

/-- A closing bracket, with its token. -/
theorem At.closing {stop : Token} (h : At s (c :: r) (depth + 1) allowed tokens)
    (hmark : c = ']' ∧ stop = .flowSequenceEnd ∨ c = '\x7d' ∧ stop = .flowMappingEnd) :
    ∃ t, Leads s t ∧ At t r depth false (stop :: tokens) := by
  have hcontent : Content (c :: r) := by
    rcases hmark with ⟨rfl, -⟩ | ⟨rfl, -⟩ <;> exact content_cons.mpr (by decide)
  refine h.leads hcontent ?_ (by simp)
  intro t ht
  have htoken : t.token = t.closeFlow stop := by
    rcases hmark with ⟨rfl, rfl⟩ | ⟨rfl, rfl⟩ <;> simp [token, ht.rest_eq, startsMarker_of_ne]
  have hstop : .streamEnd ≠ stop := by
    rcases hmark with ⟨-, rfl⟩ | ⟨-, rfl⟩ <;> decide
  rw [htoken]
  exact ht.closeFlow hstop

theorem At.comma (h : At s (',' :: r) depth allowed tokens) :
    ∃ t, Leads s t ∧ At t r depth true (.flowEntry :: tokens) := by
  refine h.leads (content_cons.mpr (by decide)) ?_ (by simp)
  intro t ht
  have htoken : t.token = t.flowEntry := by
    simp [token, ht.rest_eq, startsMarker_of_ne]
  rw [htoken]
  exact ht.flowEntry

/-- The start of an item, behind a comma unless it is the first. -/
theorem At.itemStart {first : Bool} {x : List Char}
    (h : At s ((if first then x else ',' :: x) ++ r) depth first tokens) :
    ∃ t, Leads s t ∧
      At t (x ++ r) depth true ((if first then [] else [.flowEntry]) ++ tokens) := by
  cases first with
  | true => exact ⟨s, .refl s, h⟩
  | false => exact h.comma

end

/-! ### Scalars -/

theorem At.push (h : At s rest depth allowed tokens) {t : Token} (ht : .streamEnd ≠ t)
    (d : Cursor) : At ({ s with keyAllowed := false, cursor := d }.push t) d.rest depth false
      (t :: tokens) :=
  { h with
    rest_eq := rfl
    allowed_eq := rfl
    tokens_eq := congrArg (t :: ·) h.tokens_eq
    count_eq := congrArg (· + 1) h.count_eq
    unended := by simp [ht, h.unended] }

/-- A text in quotes. -/
theorem At.quoted (h : At s rest depth allowed tokens) {w : List Char} {d : Cursor}
    (hread : quotedScalar true s.cursor = some (w, d)) :
    ∃ t, s.quoted true = some t ∧ At t d.rest depth false (.scalar .quoted w :: tokens) ∧
      t.cursor = d ∧ (allowed = true → t.key = some ⟨false, tokens.length, s.cursor.index,
        s.cursor.line, s.cursor.column⟩) := by
  obtain ⟨key, hsave, hat, hkey⟩ := h.saveKey
  refine ⟨_, ?_, hat.push (by simp) d, rfl, hkey⟩
  rw [Scan.quoted, hsave]
  simp [hread]

/-- A name and the colon behind it. -/
theorem At.name {k r : List Char} (h : At s (Json.quoted k ++ ':' :: r) (depth + 1) true tokens)
    (hk : KeyText k) : ∃ t, Leads s t ∧
      At t r (depth + 1) false (.value :: .scalar .quoted k :: .key :: tokens) := by
  obtain ⟨u, hu⟩ : ∃ u, Json.quoted k ++ ':' :: r = '"' :: u := ⟨_, rfl⟩
  obtain ⟨t, ht, hcursor, -, hstep⟩ := h.step_eq (hu ▸ content_cons.mpr (by decide))
  have hread := quotedScalar_name hk.chars (':' :: r) t.cursor.index t.cursor.line t.cursor.column
  rw [← ht.cursor_eq] at hread
  obtain ⟨v, hv, hat, hend, hkey⟩ := ht.quoted hread
  rw [token_double (ht.rest_eq.trans hu), hv, Option.bind_some] at hstep
  obtain ⟨x, hsx, hx, -, hkeyed⟩ := h.leads_refresh hat hstep (by simp [Json.quoted]; omega)
  have hshort := hk.short
  have hcandidate : Keyed v tokens.length := by
    refine ⟨_, hkey rfl, rfl, ?_⟩
    simp [Candidate.expired, hend]
    omega
  obtain ⟨y, hy, -, hyx, hnext⟩ := hx.step_eq (content_cons.mpr (by decide))
  have hcolon : y.token = y.value := by
    simp [token, hy.rest_eq, startsMarker_of_ne, hy.flow_eq_true]
  obtain ⟨z, hz, hzat⟩ := hy.colon (hyx _ (hkeyed _ hcandidate))
  rw [hcolon, hz, Option.bind_some] at hnext
  obtain ⟨w, hxw, hw, -⟩ := hx.leads_refresh hzat hnext (by simp)
  exact ⟨w, hsx.trans hxw, hw⟩

/-- A text without quotes. -/
theorem At.plain (h : At s rest (depth + 1) allowed tokens) {w : List Char} {d : Cursor}
    (hread : plainScalar true 0 s.cursor = some (w, d, false)) :
    ∃ t, s.plain = some t ∧ At t d.rest (depth + 1) false (.scalar .plain w :: tokens) := by
  obtain ⟨key, hsave, hat, -⟩ := h.saveKey
  refine ⟨_, ?_, hat.push (by simp) d⟩
  have hmargin : ({ s with key } : Scan).margin = 0 := by simp [margin, h.indents]
  have hflow : ({ s with key } : Scan).flow = true := h.flow_eq_true
  rw [Scan.plain, hsave]
  simp only [Option.bind_eq_bind, Option.bind_some, hflow, hmargin, hread]
  rfl

/-- A word without quotes. -/
theorem At.word {w r : List Char} (h : At s (w ++ r) (depth + 1) allowed tokens) (hne : w ≠ [])
    (hw : w.all Char.isAlphanum = true) (hr : Stops r) :
    ∃ t, Leads s t ∧ At t r (depth + 1) false (.scalar .plain w :: tokens) := by
  rw [List.all_eq_true] at hw
  obtain ⟨x, u, hxu⟩ := List.exists_cons_of_ne_nil hne
  have hx : x.isAlphanum = true := hw x (hxu ▸ List.mem_cons_self)
  have hne : ∀ d, d.isAlphanum = false → x ≠ d := by
    intro d hd
    exact ne_of_class hx hd
  have hstart : PlainStart (w ++ r) := by
    rw [hxu]
    exact plainStart_of_isAlphanum hx _
  have hcontent : Content (w ++ r) := by
    rw [hxu]
    exact content_of_isAlphanum hx _
  have hhead : ∀ y ∈ (w ++ r).head?, y = x := by
    rw [hxu]
    rintro y ⟨⟩
    rfl
  refine h.leads hcontent ?_ ?_
  · intro t ht
    have hflow : ∀ y ∈ t.cursor.rest.head?, y ≠ '?' ∧ y ≠ ':' := by
      rw [ht.rest_eq]
      intro y hy
      rw [hhead y hy]
      exact ⟨hne _ (by decide), hne _ (by decide)⟩
    have hline : ∀ y ∈ t.cursor.rest.head?, y ≠ '-' ∧ y ≠ '.' := by
      rw [ht.rest_eq]
      intro y hy
      rw [hhead y hy]
      exact ⟨hne _ (by decide), hne _ (by decide)⟩
    have htoken : t.token = t.plain :=
      token_plain (ht.rest_eq ▸ hstart) (fun _ => hflow) (.inr hline)
    have hread := plainScalar_word hw hr 0 t.cursor.index t.cursor.line t.cursor.column
    rw [← ht.cursor_eq] at hread
    rw [htoken]
    exact ht.plain hread
  · rw [hxu, List.length_append, List.length_cons]
    omega

/-! ### What becomes of a scan -/

/-- The scan comes to a halt somewhere before the end of the text. -/
def Stuck (s : Scan) : Prop :=
  ∃ t, Leads s t ∧ t.step = none ∧ .streamEnd ∉ t.tokens

/-- The scan meets something that denotes `x`, and goes on behind it, or is stuck within it if that
denotes nothing. -/
def Meets {α : Type} (s : Scan) (x : Option α) (after : α → Scan → Prop) : Prop :=
  match x with
  | some x => ∃ t, Leads s t ∧ after x t
  | none => Stuck s

section

variable {α β : Type} {x : Option α} {after : α → Scan → Prop}

theorem Leads.meets {t : Scan} (hst : Leads s t) (h : Meets t x after) : Meets s x after := by
  cases x with
  | some x =>
    obtain ⟨u, htu, hu⟩ := h
    exact ⟨u, hst.trans htu, hu⟩
  | none =>
    obtain ⟨u, htu, hu⟩ := h
    exact ⟨u, hst.trans htu, hu⟩

theorem Meets.bind {f : α → Option β} {later : β → Scan → Prop} (h : Meets s x after)
    (hf : ∀ x t, after x t → Meets t (f x) later) : Meets s (x.bind f) later := by
  cases x with
  | some x =>
    obtain ⟨t, hst, ht⟩ := h
    exact hst.meets (hf x t ht)
  | none => exact h

theorem Meets.map {f : α → β} {later : β → Scan → Prop} (h : Meets s x after)
    (hf : ∀ x t, after x t → later (f x) t) : Meets s (x.map f) later := by
  cases x with
  | some x =>
    obtain ⟨t, hst, ht⟩ := h
    exact ⟨t, hst, hf x t ht⟩
  | none => exact h

end

/-- **A text is met as what YAML hears of it.** -/
theorem At.text {w : String} {r : List Char}
    (h : At s (Json.quoted w.toList ++ r) depth allowed tokens) :
    Meets s (heardText w) fun x t => At t r depth false (.scalar .quoted x.toList :: tokens) := by
  obtain ⟨u, hu⟩ : ∃ u, Json.quoted w.toList ++ r = '"' :: u := ⟨_, rfl⟩
  obtain ⟨t, ht, -, -, hstep⟩ := h.step_eq (hu ▸ content_cons.mpr (by decide))
  obtain ⟨j, m, d, hread⟩ := quotedScalar_json w r t.cursor.index t.cursor.line t.cursor.column
  rw [← ht.cursor_eq] at hread
  rw [token_double (ht.rest_eq.trans hu)] at hstep
  cases hx : heardText w with
  | none =>
    obtain ⟨key, hsave, -⟩ := ht.saveKey
    refine ⟨s, .refl s, ?_, h.tokens_eq ▸ h.unended⟩
    rw [hstep, Scan.quoted, hsave]
    simp [hread, hx]
  | some x =>
    rw [hx, Option.map_some] at hread
    obtain ⟨v, hv, hat, -⟩ := ht.quoted hread
    rw [hv, Option.bind_some] at hstep
    obtain ⟨y, hsy, hy, -⟩ := h.leads_refresh hat hstep (by simp [Json.quoted]; omega)
    exact ⟨y, hsy, hy⟩

/-! ### All values -/

mutual

/-- **The tokens of a value are found in its text**, unless YAML refuses one of its texts. -/
theorem At.value (v : Value) (hv : Writable v) {s : Scan} {depth : Nat} {allowed : Bool}
    {tokens : List Token} {r : List Char}
    (h : At s (compactChars v ++ r) (depth + 1) allowed tokens) (hr : Stops r) :
    Meets s (v.traverse heardText) fun w t =>
      At t r (depth + 1) false ((flowTokens w).reverse ++ tokens) := by
  match v with
  | .none => exact h.word (List.cons_ne_nil _ _) rfl hr
  | .flag true => exact h.word (List.cons_ne_nil _ _) rfl hr
  | .flag false => exact h.word (List.cons_ne_nil _ _) rfl hr
  | .number n =>
    have hdigits : (Number.decimal n).all Char.isAlphanum = true := by
      rw [List.all_eq_true]
      intro c hc
      simp [Char.isAlphanum, Number.isDigit_of_mem_decimal hc]
    exact h.word (Number.decimal_ne_nil n) hdigits hr
  | .text w => exact h.text.map fun x t ht => ht
  | .list items =>
    have htext : compactChars (.list items) ++ r
        = '[' :: (joined true (compactItems items) ++ ']' :: r) := by
      simp [compactChars, array, intercalate_eq_joined]
    rw [htext] at h
    obtain ⟨t, hst, ht⟩ := h.opening (.inl ⟨rfl, rfl⟩)
    refine hst.meets ((At.items true items hv ht).map ?_)
    intro ws u hu
    simpa [flowTokens] using hu
  | .record fields =>
    have htext : compactChars (.record fields) ++ r
        = '\x7b' :: (joined true (compactFields fields) ++ '\x7d' :: r) := by
      simp [compactChars, object, intercalate_eq_joined]
    rw [htext] at h
    obtain ⟨t, hst, ht⟩ := h.opening (.inr ⟨rfl, rfl⟩)
    refine hst.meets ((At.fields true fields hv.2 ht).map ?_)
    intro ws u hu
    simpa [flowTokens] using hu

/-- A list reads item by item up to its bracket. -/
theorem At.items (first : Bool) (vs : List Value) (hvs : WritableItems vs) {s : Scan} {depth : Nat}
    {tokens : List Token} {r : List Char}
    (h : At s (joined first (compactItems vs) ++ ']' :: r) (depth + 1) first tokens) :
    Meets s (Value.traverseItems heardText vs) fun ws t =>
      At t r depth false (.flowSequenceEnd :: ((flowItemsTokens first ws).reverse ++ tokens)) := by
  match vs with
  | [] => exact h.closing (.inl ⟨rfl, rfl⟩)
  | v :: vs =>
    obtain ⟨-, hv, hvs⟩ := hvs
    have htext : joined first (compactItems (v :: vs)) ++ ']' :: r
        = (if first then compactChars v else ',' :: compactChars v)
          ++ (joined false (compactItems vs) ++ ']' :: r) := by
      simp [compactItems, joined]
    rw [htext] at h
    obtain ⟨t, hst, ht⟩ := h.itemStart
    refine hst.meets ((At.value v hv ht (stops_joined _ (.inl rfl) r)).bind ?_)
    intro w u hu
    refine (At.items false vs hvs hu).map ?_
    intro ws x hx
    cases first <;> simpa [flowItemsTokens] using hx

/-- A record reads field by field up to its bracket. -/
theorem At.fields (first : Bool) (fs : List (String × Value)) (hfs : WritableFields fs) {s : Scan}
    {depth : Nat} {tokens : List Token} {r : List Char}
    (h : At s (joined first (compactFields fs) ++ '\x7d' :: r) (depth + 1) first tokens) :
    Meets s (Value.traverseFields heardText fs) fun ws t =>
      At t r depth false (.flowMappingEnd :: ((flowFieldsTokens first ws).reverse ++ tokens)) := by
  match fs with
  | [] => exact h.closing (.inr ⟨rfl, rfl⟩)
  | (k, v) :: fs =>
    obtain ⟨hk, hv, hfs⟩ := hfs
    have htext : joined first (compactFields ((k, v) :: fs)) ++ '\x7d' :: r
        = (if first then Json.quoted k.toList ++ ':' :: compactChars v
            else ',' :: (Json.quoted k.toList ++ ':' :: compactChars v))
          ++ (joined false (compactFields fs) ++ '\x7d' :: r) := by
      simp [compactFields, joined]
    rw [htext] at h
    obtain ⟨t, hst, ht⟩ := h.itemStart
    rw [List.append_assoc, List.cons_append] at ht
    obtain ⟨u, htu, hu⟩ := ht.name hk
    refine (hst.trans htu).meets ((At.value v hv hu (stops_joined _ (.inr rfl) r)).bind ?_)
    intro w x hx
    refine (At.fields false fs hfs hx).map ?_
    intro ws y hy
    cases first <;> simpa [flowFieldsTokens] using hy

end

end Scan

end ImageRecipe.Yaml
