import ImageRecipe.Proofs.Number.Digits
import ImageRecipe.Proofs.Yaml.Cursor
import ImageRecipe.Yaml.QuotedScalar

/-!
# Quoted scalars read back

Between quotes of either kind a text is read in stretches, separated by spaces
or by line ends.  Double quotes hold no line end at all.  Single quotes may
hold the separators `U+2028` and `U+2029`, behind which the next line is
indented; as no space stands next to them, the indentation is all that is lost.
-/

namespace ImageRecipe.Yaml

open Number

/-! ### Escapes -/

def letterEscapes : List (Char × Char) :=
  [('\x00', '0'), ('\x07', 'a'), ('\x08', 'b'), ('\t', 't'), ('\n', 'n'), ('\x0b', 'v'),
    ('\x0c', 'f'), ('\r', 'r'), ('\x1b', 'e'), ('"', '"'), ('\\', '\\'), ('\u0085', 'N'),
    ('\u2028', 'L'), ('\u2029', 'P')]

theorem letterEscapes_spec : ∀ p ∈ letterEscapes, escapeCode p.1 = [p.2] ∧ isBreak p.2 = false ∧
    escapeWidth p.2 = none ∧ escapeChar p.2 = some p.1 := by
  decide

theorem charOfNumber?_toNat (c : Char) : charOfNumber? c.toNat = some c := by
  have hvalid : c.toNat.isValidChar := c.valid
  rw [charOfNumber?, if_pos hvalid, Char.ofNat_toNat]

theorem toNat_lt_sixteen_pow (c : Char) : c.toNat < 16 ^ 8 := by
  have hvalid : c.toNat.isValidChar := c.valid
  rw [Nat.isValidChar] at hvalid
  omega

theorem readEscape_hexDigits {letter : Char} (hl : IsHexLetter letter) {e : Char} {w : Nat}
    (he : escapeWidth e = some w) (hw : w ≠ 0) {c : Char} (hc : c.toNat < 16 ^ w) (r : List Char) :
    readEscape e (hexDigits letter w c.toNat ++ r) = some (c, w) := by
  have htake : (hexDigits letter w c.toNat ++ r).take w = hexDigits letter w c.toNat := by
    rw [List.take_append_of_le_length (by simp), List.take_of_length_le (by simp)]
  simp only [readEscape, he, htake, length_hexDigits, Nat.lt_irrefl, if_false,
    ofDigits?_hexDigits hl hw hc, charOfNumber?_toNat, Option.bind_eq_bind, Option.bind_some]
  rfl

theorem escapeCode_of_notMem {c : Char} (hc : ∀ e, (c, e) ∉ letterEscapes) :
    escapeCode c = if c.toNat < 0x100 then 'x' :: hexDigits 'A' 2 c.toNat
      else if c.toNat < 0x10000 then 'u' :: hexDigits 'A' 4 c.toNat
      else 'U' :: hexDigits 'A' 8 c.toNat := by
  have hne : ∀ p ∈ letterEscapes, c ≠ p.1 := by
    intro p hp h
    exact hc p.2 (h ▸ hp)
  simp only [letterEscapes, List.forall_mem_cons] at hne
  obtain ⟨h₁, h₂, h₃, h₄, h₅, h₆, h₇, h₈, h₉, h₁₀, h₁₁, h₁₂, h₁₃, h₁₄, -⟩ := hne
  rw [escapeCode, if_neg h₁, if_neg h₂, if_neg h₃, if_neg h₄, if_neg h₅, if_neg h₆, if_neg h₇,
    if_neg h₈, if_neg h₉, if_neg h₁₀, if_neg h₁₁, if_neg h₁₂, if_neg h₁₃, if_neg h₁₄]

/-- What stands behind a backslash is read as the character that it was written for. -/
theorem exists_escapeCode (c : Char) : ∃ e code, escapeCode c = e :: code ∧ isBreak e = false ∧
    ∀ r, readEscape e (code ++ r) = some (c, code.length) := by
  by_cases h : ∃ e, (c, e) ∈ letterEscapes
  · obtain ⟨e, he⟩ := h
    obtain ⟨hcode, hbreak, hwidth, hchar⟩ := letterEscapes_spec _ he
    exact ⟨e, [], hcode, hbreak, fun r => by simp [readEscape, hwidth, hchar]⟩
  · rw [escapeCode_of_notMem (not_exists.mp h)]
    split
    · next hc =>
      exact ⟨_, _, rfl, by decide, fun r => by
        rw [length_hexDigits, readEscape_hexDigits (.inr rfl) rfl (by decide) hc]⟩
    · split
      · next hc =>
        exact ⟨_, _, rfl, by decide, fun r => by
          rw [length_hexDigits, readEscape_hexDigits (.inr rfl) rfl (by decide) hc]⟩
      · exact ⟨_, _, rfl, by decide, fun r => by
          rw [length_hexDigits,
            readEscape_hexDigits (.inr rfl) rfl (by decide) (toNat_lt_sixteen_pow c)]⟩

/-! ### One character after the other -/

/-- What a quoted scalar goes on with where a stretch of it has stopped. -/
def quotedStop (double : Bool) (d : Cursor) : Option (List Char × Cursor) :=
  match d.rest with
  | [] => none
  | q :: _ =>
    if q == (if double then '"' else '\'') then some ([], d.skip 1)
    else if isSpace q || isBreak q then
      (breaks 0 (d.skipWhile isSpace)).bind fun b =>
        (quotedRest double b.2).map fun t =>
          (separation (d.rest.takeWhile isSpace) b.1 ++ t.1, t.2)
    else
      (breaks 0 ((d.skip 1).newline.skipWhile isSpace)).bind fun b =>
        (quotedRest double b.2).map fun t => (b.1 ++ t.1, t.2)

theorem quotedRest_eq (double : Bool) (c : Cursor) :
    quotedRest double c = if c.atMarker then none else
      (quotedChunk double c.rest).bind fun t =>
        (quotedStop double (c.skip t.2)).map fun u => (t.1 ++ u.1, u.2) := by
  rw [quotedRest]
  split
  · rfl
  · split
    · next h => rw [h]; rfl
    · next text n h =>
      rw [h, Option.bind_some, quotedStop]
      dsimp only
      split
      · next h' => simp only [h']; rfl
      · next q r h' =>
        simp only [h']
        by_cases hq : (q == if double = true then '"' else '\'') = true
        · simp [hq]
        · by_cases hs : (isSpace q || isBreak q) = true
          · rw [if_neg hq, if_neg hq, dif_pos hs, if_pos hs]
            split
            · next hb => rw [hb]; rfl
            · next bs e hb =>
              rw [hb]
              simp [Option.map_map, Function.comp_def]
          · rw [if_neg hq, if_neg hq, dif_neg hs, if_neg hs]
            split
            · next hb => rw [hb]; rfl
            · next bs e hb =>
              rw [hb]
              simp [Option.map_map, Function.comp_def]

theorem quotedRest_append {double : Bool} {x : Char} {piece : List Char}
    (hpiece : ∀ s, quotedChunk double (piece ++ s)
      = (quotedChunk double s).map fun t => (x :: t.1, t.2 + piece.length))
    (s : List Char) (i l : Nat) {c : Nat} (hc : Cursor.atMarker ⟨piece ++ s, i, l, c⟩ = false)
    (hpos : c + piece.length ≠ 0) :
    quotedRest double ⟨piece ++ s, i, l, c⟩
      = (quotedRest double ⟨s, i + piece.length, l, c + piece.length⟩).map
          fun t => (x :: t.1, t.2) := by
  have hskip : ∀ n, Cursor.skip ⟨piece ++ s, i, l, c⟩ (n + piece.length)
      = Cursor.skip ⟨s, i + piece.length, l, c + piece.length⟩ n := by
    intro n
    simp only [Cursor.skip, Cursor.mk.injEq, true_and]
    refine ⟨?_, by omega, by omega⟩
    rw [Nat.add_comm, List.drop_append, List.drop_of_length_le (by simp)]
    simp
  rw [quotedRest_eq, quotedRest_eq, hc, Cursor.atMarker_of_ne_zero hpos]
  simp only [hpiece]
  cases quotedChunk double s with
  | none => rfl
  | some t =>
    simp [hskip, Option.map_map, Function.comp_def]

theorem quotedChunk_stop (double : Bool) {q : Char} (hq : isSpace q = true ∨ isBreak q = true)
    (r : List Char) : quotedChunk double (q :: r) = some ([], 0) := by
  rw [quotedChunk.eq_def]
  exact if_pos (by simpa using hq)

theorem quotedRest_eq_stop {double : Bool} {c : Cursor} (hc : c.atMarker = false)
    (h : quotedChunk double c.rest = some ([], 0)) : quotedRest double c = quotedStop double c := by
  rw [quotedRest_eq, hc, h]
  simp [Cursor.skip]

/-- Spaces up to something solid belong to the text. -/
theorem quotedStop_spaces (double : Bool) (k : Nat) {s : List Char} (hs : Solid s) (i l c : Nat) :
    quotedStop double ⟨spaces (k + 1) ++ s, i, l, c⟩
      = (quotedRest double ⟨s, i + (k + 1), l, c + (k + 1)⟩).map
          fun t => (spaces (k + 1) ++ t.1, t.2) := by
  have hcons : spaces (k + 1) ++ s = ' ' :: (spaces k ++ s) := rfl
  rw [quotedStop, Cursor.skipWhile_isSpace_spaces (k + 1) hs.unspaced, breaks_solid hs,
    takeWhile_isSpace_spaces (k + 1) hs.unspaced, hcons]
  cases double <;> simp [isSpace, separation]

theorem quotedRest_spaces (double : Bool) (k : Nat) {s : List Char} (hs : Solid s) (i l : Nat)
    {c : Nat} (hc : c ≠ 0) :
    quotedRest double ⟨spaces (k + 1) ++ s, i, l, c⟩
      = (quotedRest double ⟨s, i + (k + 1), l, c + (k + 1)⟩).map
          fun t => (spaces (k + 1) ++ t.1, t.2) := by
  rw [quotedRest_eq_stop (Cursor.atMarker_of_ne_zero hc)
    (quotedChunk_stop double (q := ' ') (Or.inl rfl) _), quotedStop_spaces double k hs]

/-- A space in front of others, or of something solid. -/
theorem quotedRest_space (double : Bool) (k : Nat) {s : List Char} (hs : Solid s) (i l : Nat)
    {c : Nat} (hc : c ≠ 0) :
    quotedRest double ⟨' ' :: (spaces k ++ s), i, l, c⟩
      = (quotedRest double ⟨spaces k ++ s, i + 1, l, c + 1⟩).map fun t => (' ' :: t.1, t.2) := by
  have hcons : ' ' :: (spaces k ++ s) = spaces (k + 1) ++ s := rfl
  rw [hcons, quotedRest_spaces double k hs i l hc]
  cases k with
  | zero => rfl
  | succ k =>
    rw [quotedRest_spaces double k hs (i + 1) l (Nat.succ_ne_zero c), Option.map_map,
      show i + 1 + (k + 1) = i + (k + 1 + 1) by omega,
      show c + 1 + (k + 1) = c + (k + 1 + 1) by omega]
    rfl

def IsSeparator (b : Char) : Prop :=
  b = '\u2028' ∨ b = '\u2029'

theorem IsSeparator.spec {b : Char} (hb : IsSeparator b) :
    isBreak b = true ∧ b ≠ '\r' ∧ breakChar b = b ∧ b ≠ '\n' ∧ isSpace b = false ∧ b ≠ '"' ∧
      b ≠ '\'' ∧ b ≠ '-' ∧ b ≠ '.' := by
  rcases hb with rfl | rfl <;> decide

theorem startsMarker_of_ne {a c : Char} (h : a ≠ c) (r : List Char) :
    startsMarker c (a :: r) = false := by
  unfold startsMarker
  split
  · next heq =>
    obtain ⟨rfl, -⟩ := List.cons.inj heq
    simp [h]
  · rfl

theorem separation_cons {b : Char} (hb : b ≠ '\n') (r : List Char) :
    separation [] (b :: r) = b :: r := by
  rw [separation, List.isEmpty_cons, if_neg (by decide)]
  unfold folded
  split
  · next h => exact absurd (List.cons.inj h).1 hb
  · next h => exact absurd (List.cons.inj h).1 hb
  · rfl

/-- Where a separator stands, the text goes on with the line ends from there on. -/
theorem quotedRest_of_separator (double : Bool) {b : Char} (hb : IsSeparator b) (s : List Char)
    (i l c : Nat) : quotedRest double ⟨b :: s, i, l, c⟩
      = (breaks 0 ⟨b :: s, i, l, c⟩).bind fun t =>
          (quotedRest double t.2).map fun u => (t.1 ++ u.1, u.2) := by
  obtain ⟨hbreak, -, hchar, hlf, hspace, hdouble, hsingle, hdash, hdot⟩ := hb.spec
  have hmarker : Cursor.atMarker ⟨b :: s, i, l, c⟩ = false := by
    simp [Cursor.atMarker, startsMarker_of_ne hdash, startsMarker_of_ne hdot]
  rw [quotedRest_eq_stop hmarker (quotedChunk_stop double (Or.inr hbreak) s)]
  have hskip : Cursor.skipWhile ⟨b :: s, i, l, c⟩ isSpace = ⟨b :: s, i, l, c⟩ := by
    simp [Cursor.skipWhile, Cursor.skip, hspace]
  have hquote : (b == (if double then '"' else '\'')) = false := by
    cases double <;> simp [hdouble, hsingle]
  have hbreaks : breaks 0 ⟨b :: s, i, l, c⟩
      = (breaks 0 ((Cursor.newline ⟨b :: s, i, l, c⟩).skipWhile isSpace)).map
        fun t => (b :: t.1, t.2) := by
    rw [breaks]
    simp only [hbreak, Bool.not_true, Bool.false_eq_true, if_false, List.take_zero, hchar,
      List.contains_nil]
    cases breaks 0 ((Cursor.newline ⟨b :: s, i, l, c⟩).skipWhile isSpace) <;> rfl
  rw [quotedStop, hskip, hbreaks]
  cases breaks 0 ((Cursor.newline ⟨b :: s, i, l, c⟩).skipWhile isSpace) with
  | none => simp [hquote, hbreak]
  | some t => simp [hquote, hbreak, hspace, separation_cons hlf]

/-- A separator, and the indentation behind it if the next line is not empty. -/
theorem quotedRest_separator (double : Bool) {b : Char} (hb : IsSeparator b) {k : Nat}
    {s : List Char} (hs : Solid s ∨ (k = 0 ∧ ∃ d r, IsSeparator d ∧ s = d :: r))
    (i l c : Nat) :
    quotedRest double ⟨b :: (spaces k ++ s), i, l, c⟩
      = (quotedRest double ⟨s, i + 1 + k, l + 1, k⟩).map fun t => (b :: t.1, t.2) := by
  obtain ⟨hbreak, hcr, hchar, -⟩ := hb.spec
  rw [quotedRest_of_separator double hb]
  rcases hs with hs | ⟨rfl, d, r, hd, rfl⟩
  · rw [breaks_cons hbreak hcr hs.unspaced, breaks_solid hs, hchar]
    rfl
  · have hunspaced : Unspaced (d :: r) := by simp [Unspaced, hd.spec]
    rw [breaks_cons hbreak hcr hunspaced, quotedRest_of_separator double hd, hchar]
    cases breaks 0 ⟨d :: r, i + 1 + 0, l + 1, 0⟩ with
    | none => rfl
    | some t => simp [Option.map_map, Function.comp_def]

/-! ### Double quotes -/

theorem isSpace_eq_false {c : Char} (hp : isPrintable c = true) (hc : c ≠ ' ') :
    isSpace c = false := by
  rw [Bool.eq_false_iff]
  intro hs
  rcases (by simpa [isSpace] using hs : c = ' ' ∨ c = '\t') with rfl | rfl
  · exact hc rfl
  · exact absurd hp (by decide)

theorem quotedChunk_escape {c : Char} (hc : c ≠ ' ') (s : List Char) :
    quotedChunk true (escape c ++ s)
      = (quotedChunk true s).map fun t => (c :: t.1, t.2 + (escape c).length) := by
  by_cases hplain : (isPrintable c && !isBreak c && c != '"' && c != '\\') = true
  · rw [escape, if_pos hplain]
    simp only [Bool.and_eq_true, Bool.not_eq_eq_eq_not, Bool.not_true, bne_iff_ne, ne_eq] at hplain
    obtain ⟨⟨⟨hp, hb⟩, hq⟩, hs⟩ := hplain
    rw [List.singleton_append, quotedChunk.eq_def]
    simp [isSpace_eq_false hp hc, hb, hq, hs]
  · obtain ⟨e, code, hcode, hbreak, hread⟩ := exists_escapeCode c
    have hslash : isSpace '\\' = false ∧ isBreak '\\' = false := by decide
    rw [escape, if_neg hplain, hcode, List.cons_append, List.cons_append, quotedChunk.eq_def]
    simp [hslash, hbreak, hread, Nat.add_assoc]

theorem solid_escape {c : Char} (hc : c ≠ ' ') (s : List Char) : Solid (escape c ++ s) := by
  unfold escape
  split
  · next h =>
    simp only [Bool.and_eq_true, Bool.not_eq_eq_eq_not, Bool.not_true] at h
    exact solid_cons.mpr ⟨isSpace_eq_false h.1.1.1 hc, h.1.1.2⟩
  · exact solid_cons.mpr ⟨by decide, by decide⟩

theorem exists_spaces_escape (t r : List Char) :
    ∃ k s, t.flatMap escape ++ '"' :: r = spaces k ++ s ∧ Solid s := by
  induction t with
  | nil => exact ⟨0, '"' :: r, rfl, solid_cons.mpr ⟨by decide, by decide⟩⟩
  | cons c t ih =>
    by_cases hc : c = ' '
    · obtain ⟨k, s, hs, hsolid⟩ := ih
      exact ⟨k + 1, s, by rw [hc, List.flatMap_cons, List.append_assoc, hs]; rfl, hsolid⟩
    · refine ⟨0, escape c ++ (t.flatMap escape ++ '"' :: r), ?_, solid_escape hc _⟩
      rw [List.flatMap_cons, List.append_assoc]
      rfl

/-- The quote at the end of a scalar. -/
theorem quotedRest_quote (r : List Char) (i l c : Nat) :
    quotedRest true ⟨'"' :: r, i, l, c⟩ = some ([], ⟨r, i + 1, l, c + 1⟩) := by
  have hmarker : Cursor.atMarker ⟨'"' :: r, i, l, c⟩ = false := by
    simp [Cursor.atMarker, startsMarker_of_ne]
  have hquote : quotedChunk true ('"' :: r) = some ([], 0) := by
    rw [quotedChunk.eq_def]
    simp [isSpace, isBreak]
  rw [quotedRest_eq_stop hmarker hquote]
  simp [quotedStop, Cursor.skip]

/-- **Any text reads back from double quotes.** -/
theorem quotedRest_double (t r : List Char) (i l : Nat) {c : Nat} (hc : c ≠ 0) :
    ∃ j m d, quotedRest true ⟨t.flatMap escape ++ '"' :: r, i, l, c⟩ = some (t, ⟨r, j, m, d⟩) := by
  induction t generalizing i c with
  | nil => exact ⟨i + 1, l, c + 1, quotedRest_quote r i l c⟩
  | cons x t ih =>
    rw [List.flatMap_cons, List.append_assoc]
    by_cases hx : x = ' '
    · subst hx
      obtain ⟨k, s, hs, hsolid⟩ := exists_spaces_escape t r
      obtain ⟨j, m, d, hrest⟩ := ih (i + 1) (c := c + 1) (by omega)
      refine ⟨j, m, d, ?_⟩
      have hescape : escape ' ' ++ (t.flatMap escape ++ '"' :: r) = ' ' :: (spaces k ++ s) := by
        rw [hs]; rfl
      rw [hescape, quotedRest_space true k hsolid i l hc, ← hs, hrest]
      rfl
    · obtain ⟨j, m, d, hrest⟩ := ih (i + (escape x).length) (c := c + (escape x).length) (by omega)
      exact ⟨j, m, d, by
        rw [quotedRest_append (quotedChunk_escape hx) _ i l (Cursor.atMarker_of_ne_zero hc)
          (by omega), hrest]
        rfl⟩

/-! ### Single quotes -/

/-- The text, or what is left of it, can stand in single quotes. -/
structure SingleTail (t : List Char) : Prop where
  printable : ∀ c ∈ t, isPrintable c = true
  unfed : '\n' ∉ t
  behindBreak : anyPair isBreak (· == ' ') t = false
  beforeBreak : anyPair (· == ' ') isBreak t = false

namespace SingleTail

variable {c : Char} {t : List Char}

theorem tail (h : SingleTail (c :: t)) : SingleTail t where
  printable x hx := h.printable x (List.mem_cons_of_mem c hx)
  unfed hx := h.unfed (List.mem_cons_of_mem c hx)
  behindBreak := by
    cases t with
    | nil => rfl
    | cons d t => exact (Bool.or_eq_false_iff.mp h.behindBreak).2
  beforeBreak := by
    cases t with
    | nil => rfl
    | cons d t => exact (Bool.or_eq_false_iff.mp h.beforeBreak).2

theorem isSeparator (h : SingleTail (c :: t)) (hc : isBreak c = true) : IsSeparator c := by
  have hp := h.printable c List.mem_cons_self
  have hlf : c ≠ '\n' := by
    intro hc
    exact h.unfed (hc ▸ List.mem_cons_self)
  simp only [isBreak, Bool.or_eq_true, beq_iff_eq] at hc
  rcases hc with (((rfl | rfl) | rfl) | rfl) | rfl
  · exact absurd rfl hlf
  · exact absurd hp (by decide)
  · exact absurd hp (by decide)
  · exact Or.inl rfl
  · exact Or.inr rfl

theorem of_fitsSingle (h : fitsSingle t = true) (ht : '\n' ∉ t) : SingleTail t := by
  simp only [fitsSingle, Bool.and_eq_true, List.all_eq_true, Bool.not_eq_eq_eq_not,
    Bool.not_true] at h
  exact ⟨h.1.1, ht, h.1.2, h.2⟩

end SingleTail

def singlePiece (c : Char) : List Char :=
  if c = '\'' then ['\'', '\''] else [c]

theorem singleBody_cons (n : Nat) {c : Char} (hc : isBreak c = false) (t : List Char) :
    singleBody n false (c :: t) = singlePiece c ++ singleBody n false t := by
  rw [singleBody, hc]
  simp [indentation, singlePiece]

theorem quotedChunk_singlePiece {c : Char} (hs : isSpace c = false) (hb : isBreak c = false)
    (s : List Char) : quotedChunk false (singlePiece c ++ s)
      = (quotedChunk false s).map fun t => (c :: t.1, t.2 + (singlePiece c).length) := by
  unfold singlePiece
  split
  · next hc =>
    subst hc
    rw [List.cons_append, List.cons_append, quotedChunk.eq_def]
    simp [hs, hb]
  · next hc =>
    rw [List.singleton_append, quotedChunk.eq_def]
    simp [hs, hb, hc]

theorem solid_singlePiece {c : Char} (hs : isSpace c = false) (hb : isBreak c = false)
    (s : List Char) : Solid (singlePiece c ++ s) := by
  unfold singlePiece
  split
  · exact solid_cons.mpr ⟨by decide, by decide⟩
  · exact solid_cons.mpr ⟨hs, hb⟩

theorem exists_spaces_singleBody {t : List Char} (ht : SingleTail (' ' :: t)) (n : Nat)
    (r : List Char) : ∃ k s, singleBody n false t ++ '\'' :: r = spaces k ++ s ∧ Solid s := by
  induction t with
  | nil => exact ⟨0, '\'' :: r, rfl, solid_cons.mpr ⟨by decide, by decide⟩⟩
  | cons c t ih =>
    have hb : isBreak c = false := (Bool.or_eq_false_iff.mp ht.beforeBreak).1
    rw [singleBody_cons n hb, List.append_assoc]
    by_cases hc : c = ' '
    · subst hc
      obtain ⟨k, s, hs, hsolid⟩ := ih ht.tail
      exact ⟨k + 1, s, by rw [hs]; rfl, hsolid⟩
    · have hs := isSpace_eq_false (ht.tail.printable c List.mem_cons_self) hc
      exact ⟨0, _, rfl, solid_singlePiece hs hb _⟩

/-- Behind a separator the text goes on behind an indentation, or with the next separator. -/
theorem singleBody_true {c : Char} {t : List Char} (hc : isBreak c = true)
    (ht : SingleTail (c :: t)) {n : Nat} (hn : n ≠ 0) (r : List Char) :
    ∃ k, singleBody n true t ++ '\'' :: r = spaces k ++ (singleBody n false t ++ '\'' :: r) ∧
      (k ≠ 0 ∧ Solid (singleBody n false t ++ '\'' :: r) ∨
        k = 0 ∧ (∃ d ∈ t.head?, isBreak d = true) ∧
          ∃ d u, IsSeparator d ∧ singleBody n false t ++ '\'' :: r = d :: u) := by
  cases t with
  | nil => exact ⟨n, rfl, Or.inl ⟨hn, solid_cons.mpr ⟨by decide, by decide⟩⟩⟩
  | cons d t =>
    by_cases hd : isBreak d = true
    · have hbody : ∀ atStart, singleBody n atStart (d :: t) = d :: singleBody n true t := by
        intro atStart
        rw [singleBody, if_pos hd]
      refine ⟨0, ?_, Or.inr ⟨rfl, ⟨d, rfl, hd⟩, d, singleBody n true t ++ '\'' :: r,
        ht.tail.isSeparator hd, ?_⟩⟩
      · rw [hbody, hbody]
        rfl
      · rw [hbody, List.cons_append]
    · rw [Bool.not_eq_true] at hd
      have hspace : isSpace d = false := by
        refine isSpace_eq_false (ht.tail.printable d List.mem_cons_self) fun h => ?_
        have hpair := (Bool.or_eq_false_iff.mp ht.behindBreak).1
        simp [hc, h] at hpair
      refine ⟨n, ?_, Or.inl ⟨hn, ?_⟩⟩
      · simp [singleBody, hd, indentation]
      · rw [singleBody_cons n hd, List.append_assoc]
        exact solid_singlePiece hspace hd _

/-- **A text that fits reads back from single quotes.** -/
theorem quotedRest_single {t : List Char} (ht : SingleTail t) {n : Nat} (hn : n ≠ 0)
    {r : List Char} (hr : r.head? ≠ some '\'') (i l : Nat) {c : Nat}
    (hc : c ≠ 0 ∨ ∃ d ∈ t.head?, isBreak d = true) :
    ∃ j m d, quotedRest false ⟨singleBody n false t ++ '\'' :: r, i, l, c⟩
      = some (t, ⟨r, j, m, d⟩) := by
  induction t generalizing i l c with
  | nil =>
    have hc : c ≠ 0 := by simpa using hc
    have hquote : quotedChunk false ('\'' :: r) = some ([], 0) := by
      rw [quotedChunk.eq_def]
      cases r with
      | nil => simp [isSpace, isBreak]
      | cons d r =>
        have hd : d ≠ '\'' := by simpa using hr
        simp [isSpace, isBreak, hd]
    exact ⟨i + 1, l, c + 1, by
      rw [singleBody, indentation, if_neg (by decide), List.nil_append,
        quotedRest_eq_stop (Cursor.atMarker_of_ne_zero hc) hquote]
      simp [quotedStop, Cursor.skip]⟩
  | cons x t ih =>
    -- a break comes with the indentation that the printer puts behind it, a space with those that
    -- stand in front of the next chunk
    by_cases hx : isBreak x = true
    · obtain ⟨k, hbody, hk⟩ := singleBody_true hx ht hn r
      obtain ⟨j, m, d, hrest⟩ := ih ht.tail (i + 1 + k) (l + 1) (c := k)
        (hk.imp And.left fun h => h.2.1)
      refine ⟨j, m, d, ?_⟩
      rw [singleBody, if_pos hx, List.cons_append, hbody,
        quotedRest_separator false (ht.isSeparator hx) (hk.imp And.right fun h => ⟨h.1, h.2.2⟩),
        hrest]
      rfl
    · rw [Bool.not_eq_true] at hx
      have hcol : c ≠ 0 := by simpa [hx] using hc
      rw [singleBody_cons n hx, List.append_assoc]
      by_cases hsp : x = ' '
      · subst hsp
        obtain ⟨k, s, hs, hsolid⟩ := exists_spaces_singleBody ht n r
        obtain ⟨j, m, d, hrest⟩ := ih ht.tail (i + 1) l (c := c + 1) (Or.inl (by omega))
        refine ⟨j, m, d, ?_⟩
        have hpiece : singlePiece ' ' ++ (singleBody n false t ++ '\'' :: r)
            = ' ' :: (spaces k ++ s) := by
          rw [hs]; rfl
        rw [hpiece, quotedRest_space false k hsolid i l hcol, ← hs, hrest]
        rfl
      · have hspace := isSpace_eq_false (ht.printable x List.mem_cons_self) hsp
        obtain ⟨j, m, d, hrest⟩ := ih ht.tail (i + (singlePiece x).length) l
          (c := c + (singlePiece x).length) (Or.inl (by omega))
        exact ⟨j, m, d, by
          rw [quotedRest_append (quotedChunk_singlePiece hspace hx) _ i l
            (Cursor.atMarker_of_ne_zero hcol) (by omega), hrest]
          rfl⟩

/-! ### Whole scalars -/

theorem quotedScalar_double (t r : List Char) (i l c : Nat) :
    ∃ j m d, quotedScalar true ⟨'"' :: (t.flatMap escape ++ '"' :: r), i, l, c⟩
      = some (t, ⟨r, j, m, d⟩) :=
  quotedRest_double t r (i + 1) l (Nat.succ_ne_zero c)

theorem quotedScalar_single {t : List Char} (ht : SingleTail t) {n : Nat} (hn : n ≠ 0)
    {r : List Char} (hr : r.head? ≠ some '\'') (i l c : Nat) :
    ∃ j m d, quotedScalar false ⟨'\'' :: (singleBody n false t ++ '\'' :: r), i, l, c⟩
      = some (t, ⟨r, j, m, d⟩) :=
  quotedRest_single ht hn hr (i + 1) l (Or.inl (Nat.succ_ne_zero c))

end ImageRecipe.Yaml
