import ImageRecipe.Proofs.Yaml.BlockScalar
import ImageRecipe.Proofs.Yaml.PlainScalar
import ImageRecipe.Proofs.Yaml.QuotedScalar
import ImageRecipe.Proofs.Yaml.Scan

/-!
# Written scalars are one token each

Whatever layout a text was given, the scanner makes of it the token that
`scalarToken` names, and is then ready for what follows.
-/

namespace ImageRecipe.Yaml

def textStyle (s : List Char) : Style :=
  match layout s with
  | .plain => .plain
  | .single | .double => .quoted
  | .literal => .literal

def scalarToken (s : List Char) : Token :=
  .scalar (textStyle s) s

/-- Why a text has the layout that it has. -/
theorem layout_spec (s : List Char) :
    (layout s = .plain ∧ denotesItself s = true ∧ fitsPlain s = true) ∨
    (layout s = .single ∧ '\n' ∉ s ∧ fitsSingle s = true) ∨
    layout s = .double ∨ (layout s = .literal ∧ '\n' ∈ s ∧ fitsLiteral s = true) := by
  unfold layout
  split
  · next hlf =>
    split
    · next h => exact Or.inr (Or.inr (Or.inr ⟨rfl, by simpa using hlf, h⟩))
    · exact Or.inr (Or.inr (Or.inl rfl))
  · next hlf =>
    split
    · next h =>
      rw [Bool.and_eq_true] at h
      exact Or.inl ⟨rfl, h.1, h.2⟩
    · split
      · next h => exact Or.inr (Or.inl ⟨rfl, by simpa using hlf, h⟩)
      · exact Or.inr (Or.inr (Or.inl rfl))

/-- What a written text means: itself. -/
theorem resolve_of_plain {s : List Char} (h : textStyle s = .plain) : resolve s = .text := by
  rcases layout_spec s with ⟨-, hself, -⟩ | ⟨hl, -⟩ | hl | ⟨hl, -⟩
  · simp only [denotesItself, Bool.and_eq_true, decide_eq_true_eq] at hself
    exact hself.1
  all_goals
    simp only [textStyle, hl] at h
    cases h

namespace Scan

variable {c : Cursor} {indents : List Nat} {key : Option Candidate} {allowed : Bool}
  {tokens : List Token}

/-- A token that is no key, deeper than the innermost collection, may yet be remembered as one. -/
theorem exists_saveKey (hkey : Droppable key) {c : Cursor} {p : Nat} (hp : p < c.column)
    (indents : List Nat) (allowed : Bool) (tokens : List Token) : ∃ key', Droppable key' ∧
      (outside c (p :: indents) key allowed tokens).saveKey
        = some (outside c (p :: indents) key' allowed tokens) := by
  cases allowed with
  | false => exact ⟨key, hkey, rfl⟩
  | true =>
    have hne : (some p == some c.column) = false := by simpa using Nat.ne_of_lt hp
    refine ⟨some ⟨false, tokens.length, c.index, c.line, c.column⟩, by simp [Droppable], ?_⟩
    simp [saveKey, dropKey, outside, release_of_droppable hkey, flow, hne]

/-! ### Plain scalars -/

/-- A plain scalar may start with `x` where `r` follows. -/
structure PlainHead (x : Char) (r : List Char) : Prop where
  unmarked : isIndicator x = false
  unspaced : isSpace x = false
  unbroken : isBreak x = false
  word : x = '-' ∨ x = '?' ∨ x = ':' → endsWord r = false

def PlainStart (s : List Char) : Prop :=
  ∃ x r, s = x :: r ∧ PlainHead x r

theorem PlainHead.startsPlain {x : Char} {r : List Char} (h : PlainHead x r) {s : Scan}
    (hflow : s.flow = true → x ≠ '?' ∧ x ≠ ':') : s.startsPlain x r = true := by
  rw [Scan.startsPlain]
  split
  · next hdash =>
    have hr := h.word (Or.inl (by simpa using hdash))
    cases r with
    | nil => rfl
    | cons y r =>
      simp only [endsWord, Bool.or_eq_false_iff] at hr
      simp [hr.1]
  · split
    · next hmark =>
      have hx : x = '?' ∨ x = ':' := by simpa using hmark
      have hblock : s.flow = false := by
        rw [Bool.eq_false_iff]
        intro hs
        exact hx.elim (hflow hs).1 (hflow hs).2
      rw [h.word (Or.inr hx), hblock]
      rfl
    · have hmarks : ",[]\x7b\x7d#&*!|>'\"%@\x60".toList.all isIndicator = true := by decide
      have hmem : x ∉ ",[]\x7b\x7d#&*!|>'\"%@\x60".toList := by
        intro hx
        exact ne_of_class (List.all_eq_true.mp hmarks x hx) h.unmarked rfl
      rw [h.unspaced, h.unbroken, List.contains_eq_mem, decide_eq_false hmem]
      rfl

theorem token_plain {s : Scan} (hs : PlainStart s.cursor.rest)
    (hflow : s.flow = true → ∀ x ∈ s.cursor.rest.head?, x ≠ '?' ∧ x ≠ ':')
    (hn : s.cursor.column ≠ 0 ∨ ∀ x ∈ s.cursor.rest.head?, x ≠ '-' ∧ x ≠ '.') :
    s.token = s.plain := by
  obtain ⟨x, r, hr, hx⟩ := hs
  rw [hr] at hflow hn
  have hne : ∀ d, isIndicator d = true → (x == d) = false := by
    intro d hd
    rw [beq_eq_false_iff_ne]
    exact (ne_of_class hd hx.unmarked).symm
  have hdash : (x == '-' && endsWord r) = false := by
    by_cases hxd : x = '-'
    · rw [hx.word (Or.inl hxd), Bool.and_false]
    · rw [beq_eq_false_iff_ne.mpr hxd, Bool.false_and]
  have hend : ∀ d, d = '?' ∨ d = ':' → (x == d && (s.flow || endsWord r)) = false := by
    intro d hd
    by_cases hxd : x = d
    · have hblock : s.flow = false := by
        rw [Bool.eq_false_iff]
        intro hs
        obtain ⟨h₁, h₂⟩ := hflow hs x rfl
        exact hd.elim (h₁ <| hxd.trans ·) (h₂ <| hxd.trans ·)
      rw [hx.word (Or.inr (hxd ▸ hd)), hblock, Bool.or_false, Bool.and_false]
    · rw [beq_eq_false_iff_ne.mpr hxd, Bool.false_and]
  have hmarker : ∀ d, d = '-' ∨ d = '.' →
      (s.cursor.column == 0 && startsMarker d (x :: r)) = false := by
    intro d hd
    rcases hn with hn | hn
    · simp [hn]
    · obtain ⟨h₁, h₂⟩ := hn x rfl
      rcases hd with rfl | rfl
      · rw [startsMarker_of_ne h₁, Bool.and_false]
      · rw [startsMarker_of_ne h₂, Bool.and_false]
  rw [token]
  simp only [hr, hmarker '-' (by simp), hmarker '.' (by simp), hdash, hend '?' (by simp),
    hend ':' (by simp), hne '%' (by decide), hne '[' (by decide), hne '{' (by decide),
    hne ']' (by decide), hne '}' (by decide), hne ',' (by decide), hne '*' (by decide),
    hne '&' (by decide), hne '!' (by decide), hne '|' (by decide), hne '>' (by decide),
    hne '\'' (by decide), hne '"' (by decide), hx.startsPlain (hflow · x rfl), Bool.and_false,
    Bool.false_and, Bool.false_eq_true, if_false, if_true]

theorem PlainStart.of_fitsPlain {s : List Char} (h : fitsPlain s = true) (r : List Char) :
    PlainStart (s ++ r) := by
  have htail := PlainTail.of_fitsPlain h
  simp only [fitsPlain, Bool.and_eq_true, bne_iff_ne, ne_eq, Bool.not_eq_eq_eq_not,
    Bool.not_true] at h
  obtain ⟨⟨⟨⟨-, hhead⟩, -⟩, hstart⟩, -⟩ := h
  cases s with
  | nil => cases hstart
  | cons x s =>
    simp only [startsIndicator, Bool.or_eq_false_iff] at hstart
    obtain ⟨⟨⟨hindicator, hword⟩, -⟩, -⟩ := hstart
    refine ⟨x, s ++ r, rfl, hindicator, ?_, htail.unbroken x List.mem_cons_self, ?_⟩
    · rw [Bool.eq_false_iff]
      intro hspace
      exact hhead (congrArg some (htail.spaced x List.mem_cons_self hspace))
    · intro hx
      refine endsWord_append ?_ _
      rcases hx with rfl | rfl | rfl
      · simpa using hword
      · simpa using hword
      · exact htail.colon (s := [])

theorem plain_outside {d : Cursor} {key' : Option Candidate} {w : List Char} {later : Bool}
    (hsave : (outside c indents key allowed tokens).saveKey
      = some (outside c indents key' allowed tokens))
    (hread : plainScalar false (outside c indents key' allowed tokens).margin c
      = some (w, d, later)) :
    (outside c indents key allowed tokens).plain
      = some (outside d indents key' later (.scalar .plain w :: tokens)) := by
  rw [plain, hsave]
  simp only [Option.bind_eq_bind, Option.bind_some, flow_outside, cursor_outside, hread]
  rfl

/-- The token of a plain scalar that ends its line. -/
theorem token_plain_fits {w s : List Char} (hw : fitsPlain w = true) (hs : Content s) {p k n : Nat}
    (hk : k ≤ p) (hn : p < n) (hkey : Droppable key) (i l : Nat) :
    ∃ c b key', Droppable key' ∧
      (outside ⟨w ++ '\n' :: (spaces k ++ s), i, l, n⟩ (p :: indents) key allowed tokens).token
        = some (outside c (p :: indents) key' b (.scalar .plain w :: tokens)) ∧
      c.rest.length < (w ++ '\n' :: (spaces k ++ s)).length ∧ Lands c b s k true := by
  obtain ⟨j, hread⟩ := plainScalar_fits hw hs.solid hk i l hn
  obtain ⟨key', hkey', hsave⟩ := exists_saveKey hkey
    (c := ⟨w ++ '\n' :: (spaces k ++ s), i, l, n⟩) hn indents allowed tokens
  refine ⟨⟨s, j, l + 1, k⟩, true, key', hkey', ?_, by simp; omega, ?_⟩
  · rw [token_plain (.of_fitsPlain hw _) (by simp) (Or.inl (Nat.ne_of_gt (Nat.zero_lt_of_lt hn))),
      plain_outside hsave hread]
  · simpa [spaces] using lands_content hs true 0 j (l + 1) k

/-! ### Other scalars -/

theorem quoted_outside {d : Cursor} {key' : Option Candidate} {w : List Char} {double : Bool}
    (hsave : (outside c indents key allowed tokens).saveKey
      = some (outside c indents key' allowed tokens))
    (hread : quotedScalar double c = some (w, d)) :
    (outside c indents key allowed tokens).quoted double
      = some (outside d indents key' false (.scalar .quoted w :: tokens)) := by
  rw [quoted, hsave]
  simp only [Option.bind_eq_bind, Option.bind_some, cursor_outside, hread]
  rfl

theorem block_outside (hkey : Droppable key) {d : Cursor} {w : List Char}
    (hread : blockScalar true (outside c indents none allowed tokens).margin c = some (w, d)) :
    (outside c indents key allowed tokens).block true
      = some (outside d indents none true (.scalar .literal w :: tokens)) := by
  have hdrop : (outside c indents key allowed tokens).dropKey
      = some (outside c indents none allowed tokens) := by
    rw [dropKey]
    simp only [outside, release_of_droppable hkey]
    rfl
  rw [block, hdrop]
  simp only [Option.bind_eq_bind, Option.bind_some, cursor_outside, hread]
  rfl

theorem token_single {r : List Char} {i l n : Nat} :
    (outside ⟨'\'' :: r, i, l, n⟩ indents key allowed tokens).token
      = (outside ⟨'\'' :: r, i, l, n⟩ indents key allowed tokens).quoted false := by
  simp [token, startsMarker_of_ne]

theorem token_double {s : Scan} {r : List Char} (h : s.cursor.rest = '"' :: r) :
    s.token = s.quoted true := by
  simp [token, h, startsMarker_of_ne]

theorem token_literal {r : List Char} {i l n : Nat} :
    (outside ⟨'|' :: r, i, l, n⟩ indents key allowed tokens).token
      = (outside ⟨'|' :: r, i, l, n⟩ indents key allowed tokens).block true := by
  simp [token, startsMarker_of_ne]

/-- **A text is one token**, whatever its layout. -/
theorem token_scalar (t : List Char) {s : List Char} (hs : Content s) {p k n : Nat} (hk : k ≤ p)
    (hn : p < n) (hkey : Droppable key) (i l : Nat) :
    ∃ c b key', Droppable key' ∧
      (outside ⟨scalar (p + 2) t ++ (spaces k ++ s), i, l, n⟩ (p :: indents) key allowed
          tokens).token
        = some (outside c (p :: indents) key' b (scalarToken t :: tokens)) ∧
      c.rest.length < (scalar (p + 2) t ++ (spaces k ++ s)).length ∧ Lands c b s k true := by
  rcases layout_spec t with ⟨hl, -, hfits⟩ | ⟨hl, hlf, hfits⟩ | hl | ⟨hl, hlf, hfits⟩
  · have htext : scalar (p + 2) t ++ (spaces k ++ s) = t ++ '\n' :: (spaces k ++ s) := by
      simp [scalar, hl]
    rw [htext, scalarToken, textStyle, hl]
    exact token_plain_fits hfits hs hk hn hkey i l
  · have htext : scalar (p + 2) t ++ (spaces k ++ s)
        = '\'' :: (singleBody (p + 2) false t ++ '\'' :: '\n' :: (spaces k ++ s)) := by
      simp [scalar, hl]
    rw [htext, scalarToken, textStyle, hl, token_single]
    obtain ⟨j, m, d, hread⟩ := quotedScalar_single (.of_fitsSingle hfits hlf)
      (show p + 2 ≠ 0 by omega) (r := '\n' :: (spaces k ++ s)) (by simp) i l n
    obtain ⟨key', hkey', hsave⟩ := exists_saveKey hkey (c := ⟨_, i, l, n⟩) hn indents allowed tokens
    exact ⟨_, _, key', hkey', quoted_outside hsave hread, by simp; omega,
      lands_newline hs _ k j m d⟩
  · have htext : scalar (p + 2) t ++ (spaces k ++ s)
        = '"' :: (t.flatMap escape ++ '"' :: '\n' :: (spaces k ++ s)) := by
      simp [scalar, hl]
    rw [htext, scalarToken, textStyle, hl, token_double rfl]
    obtain ⟨j, m, d, hread⟩ := quotedScalar_double t ('\n' :: (spaces k ++ s)) i l n
    obtain ⟨key', hkey', hsave⟩ := exists_saveKey hkey (c := ⟨_, i, l, n⟩) hn indents allowed tokens
    exact ⟨_, _, key', hkey', quoted_outside hsave hread, by simp; omega,
      lands_newline hs _ k j m d⟩
  · have htext : scalar (p + 2) t ++ (spaces k ++ s)
        = '|' :: (literalHeader t ++ '\n' :: (literalBody (p + 2) true t ++ (spaces k ++ s))) := by
      simp [scalar, hl]
    have hprintable : ∀ c ∈ t, isPrintable c = true := by
      simp only [fitsLiteral, Bool.and_eq_true, List.all_eq_true] at hfits
      exact hfits.1.1
    rw [htext, scalarToken, textStyle, hl, token_literal]
    have hne : t ≠ [] := List.ne_nil_of_mem hlf
    obtain ⟨j, m, hread⟩ := blockScalar_literal hprintable hne hs.solid hk i l n
    refine ⟨⟨s, j, m, k⟩, true, none, droppable_none, ?_, by simp; omega, ?_⟩
    · exact block_outside hkey hread
    · simpa [spaces] using lands_content hs true 0 j m k

end Scan

end ImageRecipe.Yaml
