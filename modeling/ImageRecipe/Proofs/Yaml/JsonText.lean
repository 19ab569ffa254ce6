import ImageRecipe.Proofs.Json.Strings
import ImageRecipe.Proofs.Yaml.QuotedScalar
import Mathlib.Data.List.TakeWhile

/-!
# What YAML hears in a JSON string

A JSON string is a scalar in double quotes, and all its escapes are known to
YAML.  But three characters that end a line in YAML stand in JSON as they are:
`U+0085`, `U+2028` and `U+2029`.  So YAML folds them, with the spaces around
them, and looks for a document marker behind them.  `heardFrom` is what it makes
of a text, if it does not refuse the text.
-/

namespace ImageRecipe.Yaml

open Number

/-- The characters that stand as they are in a JSON string and end a word for YAML. -/
def isGap (c : Char) : Bool :=
  c == ' ' || c == '\u0085' || c == '\u2028' || c == '\u2029'

def endsInBreak (s : List Char) : Bool :=
  s.getLast?.any isBreak

/-- Whether a text starts with the word `---` or `...`. -/
def startsMarked (s : List Char) : Bool :=
  ("---".toList.isPrefixOf s || "...".toList.isPrefixOf s) && (s.drop 3).head?.any isGap

/-- What is left of the gap between two words. -/
def heardGap (gap : List Char) : List Char :=
  separation (gap.takeWhile isSpace) ((gap.filter isBreak).map breakChar)

/-- What YAML hears of a text behind a gap; `none` if it refuses the text. -/
def heardFrom : (gap : List Char) → List Char → Option (List Char)
  | gap, [] => some (heardGap gap)
  | gap, c :: r =>
    if isGap c then heardFrom (gap ++ [c]) r
    else if endsInBreak gap && startsMarked (c :: r) then none
    else (heardFrom [] r).map (heardGap gap ++ c :: ·)

theorem heardFrom_gap {g : List Char} {c : Char} (hc : isGap c = true) (r : List Char) :
    heardFrom g (c :: r) = heardFrom (g ++ [c]) r :=
  if_pos hc

theorem heardFrom_word {g : List Char} {c : Char} (hc : isGap c = false) (r : List Char) :
    heardFrom g (c :: r) = if endsInBreak g && startsMarked (c :: r) then none
      else (heardFrom [] r).map (heardGap g ++ c :: ·) :=
  if_neg (by simp [hc])

/-! ### Characters -/

theorem isGap_iff {c : Char} : isGap c = true ↔ c = ' ' ∨ c = '\u0085' ∨ IsSeparator c := by
  simp [isGap, IsSeparator, or_assoc]

theorem isSpace_or_isBreak_of_isGap {c : Char} (h : isGap c = true) :
    isSpace c = true ∨ isBreak c = true := by
  rcases isGap_iff.mp h with rfl | rfl | rfl | rfl <;> decide

/-- What ends a word and is no control character stands in a gap. -/
theorem solid_of_not_isGap {c : Char} (hc : isGap c = false) (hle : ' ' ≤ c) :
    isSpace c = false ∧ isBreak c = false := by
  have hne : ∀ d, d < ' ' → c ≠ d := by
    rintro d hd rfl
    exact absurd hd (Nat.not_lt_of_le hle)
  simp only [isGap, Bool.or_eq_false_iff, beq_eq_false_iff_ne] at hc
  obtain ⟨⟨⟨hspace, hnext⟩, hline⟩, hpar⟩ := hc
  have htab : c ≠ '\t' := hne _ (by decide)
  have hlf : c ≠ '\n' := hne _ (by decide)
  have hcr : c ≠ '\r' := hne _ (by decide)
  simp [isSpace, isBreak, hspace, htab, hlf, hcr, hnext, hline, hpar]

/-- A letter that JSON writes behind a backslash means the same to YAML. -/
theorem escapeChar_of_unescape {a c : Char} (h : Json.unescape a = some c) :
    isBreak a = false ∧ escapeWidth a = none ∧ escapeChar a = some c := by
  unfold Json.unescape at h
  split at h <;> cases h <;> decide

theorem quotedChunk_backslash {e : Char} (he : isBreak e = false) (s : List Char) :
    quotedChunk true ('\\' :: e :: s) = (readEscape e s).bind fun x =>
      (quotedChunk true (s.drop x.2)).map fun t => (x.1 :: t.1, t.2 + x.2 + 2) := by
  rw [quotedChunk.eq_def]
  have hslash : isSpace '\\' = false ∧ isBreak '\\' = false := by decide
  simp only [hslash, he]
  cases readEscape e s <;> simp

/-- **A character of a word is read as it was meant.** -/
theorem quotedChunk_json {c : Char} (hc : isGap c = false) (s : List Char) :
    quotedChunk true (Json.escape c ++ s)
      = (quotedChunk true s).map fun t => (c :: t.1, t.2 + (Json.escape c).length) := by
  rcases Json.escape_cases c with ⟨a, he, -, -, ha⟩ | ⟨he, hlt⟩ | ⟨he, hq, hb, hle⟩
  · obtain ⟨hbreak, hwidth, hchar⟩ := escapeChar_of_unescape ha
    have hread : readEscape a s = some (c, 0) := by simp [readEscape, hwidth, hchar]
    rw [he, List.cons_append, List.singleton_append, quotedChunk_backslash hbreak, hread]
    rfl
  · have hread : readEscape 'u' (hexDigits 'a' 4 c.toNat ++ s) = some (c, 4) :=
      readEscape_hexDigits (.inl rfl) rfl (by decide) (by omega) s
    rw [he, List.cons_append, List.cons_append, quotedChunk_backslash (by decide), hread]
    simp [Nat.add_assoc]
  · obtain ⟨hspace, hbreak⟩ := solid_of_not_isGap hc hle
    rw [he, List.singleton_append, quotedChunk.eq_def]
    simp [hspace, hbreak, hq, hb]

theorem solid_json {c : Char} (hc : isGap c = false) (s : List Char) :
    Solid (Json.escape c ++ s) := by
  rcases Json.escape_cases c with ⟨a, he, -⟩ | ⟨he, -⟩ | ⟨he, -, -, hle⟩ <;> rw [he]
  · exact solid_cons.mpr (by decide)
  · exact solid_cons.mpr (by decide)
  · exact solid_cons.mpr (solid_of_not_isGap hc hle)

theorem escape_of_isGap {c : Char} (hc : isGap c = true) : Json.escape c = [c] := by
  rcases isGap_iff.mp hc with rfl | rfl | rfl | rfl <;> decide

/-! ### Gaps -/

/-- The lines of a gap behind its first one: what ends the line before each of them, and the number
of spaces in it. -/
def gapLines (lines : List (Char × Nat)) : List Char :=
  lines.flatMap fun p => p.1 :: spaces p.2

theorem exists_gapLines {g : List Char} (hg : ∀ c ∈ g, isGap c = true) :
    ∃ k lines, g = spaces k ++ gapLines lines ∧ ∀ p ∈ lines, isBreak p.1 = true ∧ p.1 ≠ '\r' := by
  induction g with
  | nil => exact ⟨0, [], rfl, by simp⟩
  | cons c g ih =>
    obtain ⟨hc, hg⟩ := List.forall_mem_cons.mp hg
    obtain ⟨k, lines, rfl, hlines⟩ := ih hg
    rcases isGap_iff.mp hc with rfl | hbreak
    · exact ⟨k + 1, lines, rfl, hlines⟩
    · have hend : isBreak c = true ∧ c ≠ '\r' := by
        rcases hbreak with rfl | rfl | rfl <;> decide
      exact ⟨0, (c, k) :: lines, by simp [gapLines, spaces],
        List.forall_mem_cons.mpr ⟨hend, hlines⟩⟩

theorem isSpace_of_isBreak {c : Char} (h : isBreak c = true) : isSpace c = false := by
  simp only [isBreak, Bool.or_eq_true, beq_iff_eq] at h
  rcases h with (((rfl | rfl) | rfl) | rfl) | rfl <;> decide

section

variable {lines : List (Char × Nat)} (hlines : ∀ p ∈ lines, isBreak p.1 = true ∧ p.1 ≠ '\r')
  {s : List Char} (hs : Solid s)

include hlines

include hs in
theorem unspaced_gapLines : Unspaced (gapLines lines ++ s) := by
  cases lines with
  | nil => exact hs.unspaced
  | cons p lines =>
    rintro c ⟨⟩
    exact isSpace_of_isBreak (hlines p List.mem_cons_self).1

include hs in
/-- The line ends of a gap, and the column of what follows it. -/
theorem breaks_gapLines (i l c : Nat) : ∃ j m, breaks 0 ⟨gapLines lines ++ s, i, l, c⟩
    = some (lines.map (breakChar ·.1), ⟨s, j, m, (lines.getLast?.map (·.2)).getD c⟩) := by
  induction lines generalizing i l c with
  | nil => exact ⟨i, l, breaks_solid hs 0 i l c⟩
  | cons p lines ih =>
    obtain ⟨⟨hbreak, hcr⟩, hlines⟩ := List.forall_mem_cons.mp hlines
    obtain ⟨j, m, hrest⟩ := ih hlines (i + 1 + p.2) (l + 1) p.2
    have htext : gapLines (p :: lines) ++ s = p.1 :: (spaces p.2 ++ (gapLines lines ++ s)) := by
      simp [gapLines]
    refine ⟨j, m, ?_⟩
    rw [htext, breaks_cons hbreak hcr (unspaced_gapLines hlines hs), hrest]
    cases lines <;> simp [List.getLast?_cons]

theorem filter_isBreak_gapLines (k : Nat) :
    (spaces k ++ gapLines lines).filter isBreak = lines.map (·.1) := by
  have hspaces : ∀ n, (spaces n).filter isBreak = [] := by
    intro n
    rw [List.filter_eq_nil_iff]
    intro c hc
    rw [List.eq_of_mem_replicate hc]
    decide
  rw [List.filter_append, hspaces, List.nil_append]
  induction lines with
  | nil => rfl
  | cons p lines ih =>
    obtain ⟨⟨hbreak, -⟩, hlines⟩ := List.forall_mem_cons.mp hlines
    have htext : gapLines (p :: lines) = p.1 :: (spaces p.2 ++ gapLines lines) := by
      simp [gapLines]
    rw [htext, List.filter_cons_of_pos hbreak, List.filter_append, hspaces, List.nil_append,
      ih hlines, List.map_cons]

/-- What follows a gap stands at the start of its line if a line ends right before it. -/
theorem endsInBreak_gapLines {k c : Nat} (hc : c ≠ 0) : endsInBreak (spaces k ++ gapLines lines)
    = ((lines.getLast?.map (·.2)).getD (c + k) == 0) := by
  have hblank : isBreak ' ' = false := by decide
  have hspaces : ∀ n, (spaces (n + 1)).getLast? = some ' ' := by
    intro n
    rw [spaces, List.replicate_succ', List.getLast?_concat]
  rcases List.eq_nil_or_concat lines with rfl | ⟨front, p, rfl⟩
  · rw [gapLines, List.flatMap_nil, List.append_nil, endsInBreak]
    cases k with
    | zero => simp [spaces, hc]
    | succ k => simp [hspaces, hblank]
  · have hp := (hlines p (by simp)).1
    have htext : gapLines (front.concat p) = gapLines front ++ p.1 :: spaces p.2 := by
      simp [gapLines]
    rw [endsInBreak, htext, ← List.append_assoc, List.getLast?_append]
    cases hn : p.2 with
    | zero => simp [hn, hp, spaces]
    | succ n => simp [hn, hblank, List.getLast?_cons, hspaces]

end

theorem quotedStop_gap {q : Char} (hq : isGap q = true) (s : List Char) (i l c : Nat) :
    quotedStop true ⟨q :: s, i, l, c⟩
      = (breaks 0 (Cursor.skipWhile ⟨q :: s, i, l, c⟩ isSpace)).bind fun b =>
          (quotedRest true b.2).map fun t =>
            (separation ((q :: s).takeWhile isSpace) b.1 ++ t.1, t.2) := by
  have hquote : (q == '"') = false := by
    rcases isGap_iff.mp hq with rfl | rfl | rfl | rfl <;> decide
  have hends : (isSpace q || isBreak q) = true := by
    simpa using isSpace_or_isBreak_of_isGap hq
  rw [quotedStop]
  simp only [if_true, hquote, hends, Bool.false_eq_true, if_false]

/-- **What is read over a gap.** -/
theorem quotedRest_gap {g : List Char} (hg : ∀ c ∈ g, isGap c = true) {s : List Char}
    (hs : Solid s) (i l : Nat) {c : Nat} (hc : c ≠ 0) : ∃ j m d,
      endsInBreak g = (d == 0) ∧ quotedRest true ⟨g ++ s, i, l, c⟩
        = (quotedRest true ⟨s, j, m, d⟩).map fun t => (heardGap g ++ t.1, t.2) := by
  cases g with
  | nil =>
    refine ⟨i, l, c, by simp [endsInBreak, hc], ?_⟩
    simp [heardGap, separation]
  | cons q g =>
    have hq := hg q List.mem_cons_self
    have hstop : quotedRest true ⟨q :: (g ++ s), i, l, c⟩
        = quotedStop true ⟨q :: (g ++ s), i, l, c⟩ :=
      quotedRest_eq_stop (Cursor.atMarker_of_ne_zero hc)
        (quotedChunk_stop true (isSpace_or_isBreak_of_isGap hq) _)
    obtain ⟨k, lines, hlines, hends⟩ := exists_gapLines hg
    have hunspaced := unspaced_gapLines hends hs
    have htext : q :: (g ++ s) = spaces k ++ (gapLines lines ++ s) := by
      rw [← List.cons_append, hlines, List.append_assoc]
    obtain ⟨j, m, hbreaks⟩ := breaks_gapLines hends hs (i + k) l (c + k)
    have hheard : heardGap (q :: g) = separation (spaces k) (lines.map (breakChar ·.1)) := by
      have hfront : (q :: g).takeWhile isSpace = spaces k := by
        have hbare := unspaced_gapLines hends (s := []) (by simp [Solid])
        rw [List.append_nil] at hbare
        rw [hlines, takeWhile_isSpace_spaces k hbare]
      rw [heardGap, hfront, hlines, filter_isBreak_gapLines hends, List.map_map]
      rfl
    refine ⟨j, m, _, hlines ▸ endsInBreak_gapLines hends hc, ?_⟩
    rw [List.cons_append, hstop, quotedStop_gap hq, htext,
      Cursor.skipWhile_isSpace_spaces k hunspaced, hbreaks, takeWhile_isSpace_spaces k hunspaced,
      hheard]
    rfl

/-! ### Markers -/

theorem startsMarker_eq (c : Char) (s : List Char) :
    startsMarker c s = ([c, c, c].isPrefixOf s && endsWord (s.drop 3)) := by
  rcases s with _ | ⟨a, _ | ⟨b, _ | ⟨d, s⟩⟩⟩ <;>
    simp [startsMarker, List.isPrefixOf, BEq.comm (a := c), Bool.and_assoc]

/-- The start of a text shows in what is written for it. -/
theorem isPrefixOf_json {c : Char} (hc : c = '-' ∨ c = '.') (n : Nat) (t r : List Char) :
    (List.replicate n c).isPrefixOf (t.flatMap Json.escape ++ '"' :: r)
      = (List.replicate n c).isPrefixOf t := by
  induction n generalizing t with
  | zero => simp
  | succ n ih =>
    cases t with
    | nil => rcases hc with rfl | rfl <;> rfl
    | cons a t =>
      rw [List.flatMap_cons, List.append_assoc, List.replicate_succ]
      by_cases ha : a = c
      · have hescape : Json.escape c = [c] := by rcases hc with rfl | rfl <;> decide
        rw [ha, hescape, List.singleton_append, List.isPrefixOf_cons_cons,
          List.isPrefixOf_cons_cons, ih]
      · have hslash : (c == '\\') = false := by rcases hc with rfl | rfl <;> decide
        have hne : (c == a) = false := beq_eq_false_iff_ne.mpr (Ne.symm ha)
        rcases Json.escape_cases a with ⟨_, he, -⟩ | ⟨he, -⟩ | ⟨he, -⟩ <;>
          simp [he, List.isPrefixOf_cons_cons, hslash, hne]

theorem endsWord_of_solid {c : Char} {s : List Char} (h : Solid (c :: s)) :
    endsWord (c :: s) = false := by
  simp [endsWord, solid_cons.mp h]

theorem endsWord_json (t r : List Char) :
    endsWord (t.flatMap Json.escape ++ '"' :: r) = t.head?.any isGap := by
  cases t with
  | nil => rfl
  | cons c t =>
    rw [List.flatMap_cons, List.append_assoc, List.head?_cons, Option.any_some]
    cases hc : isGap c with
    | true =>
      rw [escape_of_isGap hc]
      simpa [endsWord] using isSpace_or_isBreak_of_isGap hc
    | false =>
      have hsolid := solid_json hc (t.flatMap Json.escape ++ '"' :: r)
      rcases Json.escape_cases c with ⟨_, he, -⟩ | ⟨he, -⟩ | ⟨he, -⟩ <;>
        (rw [he] at hsolid ⊢; exact endsWord_of_solid hsolid)

theorem startsMarker_json {c : Char} (hc : c = '-' ∨ c = '.') (t r : List Char) :
    startsMarker c (t.flatMap Json.escape ++ '"' :: r)
      = ([c, c, c].isPrefixOf t && (t.drop 3).head?.any isGap) := by
  have hword : [c, c, c].isPrefixOf (t.flatMap Json.escape ++ '"' :: r) = [c, c, c].isPrefixOf t :=
    isPrefixOf_json hc 3 t r
  have hescape : Json.escape c = [c] := by rcases hc with rfl | rfl <;> decide
  rw [startsMarker_eq]
  cases hprefix : [c, c, c].isPrefixOf t with
  | false => rw [hword.trans hprefix]; rfl
  | true =>
    obtain ⟨u, rfl⟩ := List.isPrefixOf_iff_prefix.mp hprefix
    rw [hword.trans hprefix]
    simp [hescape, endsWord_json]

/-- A marker at the start of a line is one in the text. -/
theorem atMarker_json (t r : List Char) (i l : Nat) :
    Cursor.atMarker ⟨t.flatMap Json.escape ++ '"' :: r, i, l, 0⟩ = startsMarked t := by
  rw [Cursor.atMarker, startsMarker_json (.inl rfl), startsMarker_json (.inr rfl), startsMarked,
    Bool.and_or_distrib_right]
  rfl

/-! ### Texts -/

/-- Behind a gap a text is read as what is heard of it. -/
theorem quotedRest_heardFrom (t r : List Char) {g : List Char} (hg : ∀ c ∈ g, isGap c = true)
    (i l : Nat) {c : Nat} (hc : c ≠ 0) : ∃ j m d,
      quotedRest true ⟨g ++ (t.flatMap Json.escape ++ '"' :: r), i, l, c⟩
        = (heardFrom g t).map fun x => (x, ⟨r, j, m, d⟩) := by
  induction t generalizing g i l c with
  | nil =>
    have hquote : Solid ('"' :: r) := solid_cons.mpr (by decide)
    obtain ⟨j, m, d, -, hgap⟩ := quotedRest_gap hg hquote i l hc
    refine ⟨j + 1, m, d + 1, hgap.trans ?_⟩
    rw [quotedRest_quote]
    simp [heardFrom]
  | cons x t ih =>
    rw [List.flatMap_cons, List.append_assoc]
    cases hx : isGap x with
    | true =>
      obtain ⟨j, m, d, hrest⟩ := ih (g := g ++ [x]) (by simpa [or_imp, forall_and] using ⟨hg, hx⟩)
        i l hc
      refine ⟨j, m, d, ?_⟩
      rw [escape_of_isGap hx, heardFrom_gap hx, ← hrest, List.append_assoc]
    | false =>
      obtain ⟨j, m, d, hends, hgap⟩ :=
        quotedRest_gap hg (solid_json hx (t.flatMap Json.escape ++ '"' :: r)) i l hc
      have hmarker : Cursor.atMarker ⟨Json.escape x ++ (t.flatMap Json.escape ++ '"' :: r), j, m, d⟩
          = (endsInBreak g && startsMarked (x :: t)) := by
        rw [hends]
        cases d with
        | zero =>
          have hstart := atMarker_json (x :: t) r j m
          rw [List.flatMap_cons, List.append_assoc] at hstart
          simpa using hstart
        | succ d => exact Cursor.atMarker_of_ne_zero (Nat.succ_ne_zero d)
      cases hm : endsInBreak g && startsMarked (x :: t) with
      | true =>
        have hrefused : quotedRest true
            ⟨Json.escape x ++ (t.flatMap Json.escape ++ '"' :: r), j, m, d⟩ = none := by
          rw [quotedRest_eq, hmarker, hm, if_pos rfl]
        refine ⟨0, 0, 0, ?_⟩
        rw [hgap, hrefused, heardFrom_word hx, if_pos hm]
        rfl
      | false =>
        have hpos : (Json.escape x).length ≠ 0 := by
          rcases Json.escape_cases x with ⟨_, he, -⟩ | ⟨he, -⟩ | ⟨he, -⟩ <;> simp [he]
        obtain ⟨j', m', d', hrest⟩ := ih (g := []) (by simp) (j + (Json.escape x).length) m
          (c := d + (Json.escape x).length) (by omega)
        refine ⟨j', m', d', ?_⟩
        rw [hgap, quotedRest_append (quotedChunk_json hx) _ j m (hmarker.trans hm) (by omega)]
        rw [List.nil_append] at hrest
        rw [hrest, heardFrom_word hx, if_neg (by simp [hm])]
        simp [Function.comp_def]

def heardText (s : String) : Option String :=
  (heardFrom [] s.toList).map String.ofList

/-- **A JSON string is a scalar**, of which YAML has its own idea. -/
theorem quotedScalar_json (s : String) (r : List Char) (i l c : Nat) : ∃ j m d,
    quotedScalar true ⟨Json.quoted s.toList ++ r, i, l, c⟩
      = (heardText s).map fun x => (x.toList, ⟨r, j, m, d⟩) := by
  obtain ⟨j, m, d, hrest⟩ := quotedRest_heardFrom s.toList r (g := []) (by simp) (i + 1) l
    (Nat.succ_ne_zero c)
  refine ⟨j, m, d, ?_⟩
  have htext : Json.quoted s.toList ++ r = '"' :: (s.toList.flatMap Json.escape ++ '"' :: r) := by
    simp [Json.quoted]
  have hskip : Cursor.skip ⟨'"' :: (s.toList.flatMap Json.escape ++ '"' :: r), i, l, c⟩ 1
      = ⟨s.toList.flatMap Json.escape ++ '"' :: r, i + 1, l, c + 1⟩ := rfl
  rw [List.nil_append] at hrest
  rw [quotedScalar, htext, hskip, hrest, heardText, Option.map_map]
  simp [Function.comp_def]

end ImageRecipe.Yaml
