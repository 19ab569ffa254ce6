import ImageRecipe.Proofs.Yaml.Cursor
import ImageRecipe.Yaml.PlainScalar
import Mathlib.Data.List.TakeWhile

/-!
# Plain scalars read back

A text that `fitsPlain` accepts is read as a plain scalar up to the end of its
line, and the scalar ends there, because the next line is not indented deeper
than what the scalar stands in.  The induction is on the chunks of the text:
what is left of it after a chunk is a `PlainTail`.
-/

namespace ImageRecipe.Yaml

/-- The text behind a chunk of a plain scalar, or a whole one: nothing in it ends the scalar. -/
structure PlainTail (s : List Char) : Prop where
  unbroken : ∀ c ∈ s, isBreak c = false
  spaced : ∀ c ∈ s, isSpace c = true → c = ' '
  last : s.getLast? ≠ some ' '
  goesOn : endsPlain s = false

theorem endsPlain_of_append {s t : List Char} (h : endsPlain (s ++ t) = false) :
    endsPlain t = false := by
  induction s with
  | nil => exact h
  | cons c s ih =>
    rw [List.cons_append, endsPlain, Bool.or_eq_false_iff] at h
    exact ih h.2

theorem endsWord_append {s : List Char} (h : endsWord s = false) (r : List Char) :
    endsWord (s ++ r) = false := by
  cases s with
  | nil => cases h
  | cons c s => exact h

theorem endsWord_of_space {s : List Char} (h : s = [] ∨ s.head? = some ' ') :
    endsWord s = true := by
  rcases h with rfl | h
  · rfl
  · cases s with
    | nil => rfl
    | cons c s =>
      obtain rfl : c = ' ' := by simpa using h
      rfl

namespace PlainTail

variable {s t : List Char}

theorem of_append (h : PlainTail (s ++ t)) : PlainTail t where
  unbroken c hc := h.unbroken c (List.mem_append_right s hc)
  spaced c hc := h.spaced c (List.mem_append_right s hc)
  last ht := h.last (by rw [List.getLast?_append, ht]; rfl)
  goesOn := endsPlain_of_append h.goesOn

/-- A colon in the text is not followed by the end of a word. -/
theorem colon (h : PlainTail (s ++ ':' :: t)) : endsWord t = false := by
  have hc := endsPlain_of_append h.goesOn
  rw [endsPlain, Bool.or_eq_false_iff, Bool.or_eq_false_iff] at hc
  simpa using hc.1.1

/-- Behind the spaces of the text comes no number sign. -/
theorem not_startsWith {k : Nat} (h : PlainTail (spaces (k + 1) ++ t)) :
    startsWith '#' t = false := by
  rw [spaces, List.replicate_succ', List.append_assoc] at h
  have hc := endsPlain_of_append h.goesOn
  rw [List.singleton_append, endsPlain, Bool.or_eq_false_iff, Bool.or_eq_false_iff] at hc
  simpa using hc.1.2

theorem of_fitsPlain (h : fitsPlain s = true) : PlainTail s := by
  simp only [fitsPlain, Bool.and_eq_true, List.all_eq_true, bne_iff_ne, ne_eq,
    Bool.not_eq_eq_eq_not, Bool.not_true] at h
  obtain ⟨⟨⟨⟨hall, _⟩, hlast⟩, _⟩, hends⟩ := h
  refine ⟨fun c hc => (hall c hc).2, fun c hc hs => ?_, hlast, hends⟩
  rcases (by simpa [isSpace] using hs : c = ' ' ∨ c = '\t') with rfl | rfl
  · rfl
  · exact absurd (hall _ hc).1 (by decide)

end PlainTail

/-! ### Chunks -/

theorem plainChunk_append {w r : List Char}
    (hw : ∀ c ∈ w, isSpace c = false ∧ isBreak c = false)
    (hcolon : ∀ a b, w = a ++ ':' :: b → endsWord (b ++ r) = false)
    (hr : plainChunk false r = some []) : plainChunk false (w ++ r) = some w := by
  induction w with
  | nil => exact hr
  | cons c w ih =>
    have hc := hw c List.mem_cons_self
    have hword : (c == ':' && endsWord (w ++ r)) = false := by
      by_cases h : c = ':'
      · rw [hcolon [] w (by rw [h]; rfl), Bool.and_false]
      · simp [h]
    rw [List.cons_append, plainChunk, hc.1, hc.2, hword,
      ih (fun x hx => hw x (List.mem_cons_of_mem c hx))
        fun a b h => hcolon (c :: a) b (by rw [h]; rfl)]
    simp

theorem plainChunk_endsWord {r : List Char} (h : endsWord r = true) :
    plainChunk false r = some [] := by
  cases r with
  | nil => rfl
  | cons c r => rw [plainChunk, show (isSpace c || isBreak c) = true from h]; simp

/-- A chunk of a text, up to the next space. -/
theorem plainChunk_tail {w t r : List Char} (h : PlainTail (w ++ t))
    (hw : ∀ c ∈ w, isSpace c = false) (ht : endsWord t = true) (hr : endsWord r = true) :
    plainChunk false (w ++ (t ++ r)) = some w := by
  refine plainChunk_append (fun c hc => ⟨hw c hc, h.unbroken c (List.mem_append_left t hc)⟩) ?_ ?_
  · intro a b hab
    have hcolon : endsWord (b ++ t) = false := by
      rw [hab, List.append_assoc] at h
      exact h.colon
    rw [← List.append_assoc]
    exact endsWord_append hcolon r
  · refine plainChunk_endsWord ?_
    cases t with
    | nil => exact hr
    | cons c t => exact ht

/-! ### Whole scalars -/

/-- The equation of `plainRest`, without the proofs that it ends. -/
theorem plainRest_eq (flow : Bool) (margin : Nat) (c : Cursor) :
    plainRest flow margin c =
      match breaks margin (c.skipWhile isSpace) with
      | none => none
      | some (bs, d) =>
        let spaces := c.rest.takeWhile isSpace
        if spaces.isEmpty && bs.isEmpty then some ([], c, false)
        else if !flow && d.column < margin then some ([], d, !bs.isEmpty)
        else if d.atMarker || startsWith '#' d.rest then some ([], d, !bs.isEmpty)
        else
          match plainChunk flow d.rest with
          | none => none
          | some [] => some ([], d, !bs.isEmpty)
          | some (ch :: chunk) =>
            match plainRest flow margin (d.skip (chunk.length + 1)) with
            | none => none
            | some (text, e, later) =>
              some (separation spaces bs ++ ch :: chunk ++ text, e, later) := by
  rw [plainRest]
  split
  · next h => simp only [h]
  · next bs d h =>
    simp only [h]
    split
    · rfl
    · split
      · rfl
      · split
        · rfl
        · split
          · next h' => simp only [h']
          · next h' => simp only [h']
          · next h' => exact h' ▸ rfl

/-- A text behind a chunk is made of spaces, the next chunk, and what is behind that. -/
theorem PlainTail.exists_chunk {t : List Char} (h : PlainTail t) (hne : t ≠ []) :
    ∃ k c w u, t = spaces k ++ (c :: w ++ u) ∧ (∀ x ∈ c :: w, isSpace x = false) ∧
      (u = [] ∨ u.head? = some ' ') ∧ (t.head? = some ' ' → 0 < k) := by
  obtain ⟨a, r, rfl, ha, hr⟩ := exists_span isSpace t
  have hspaces : a = spaces a.length :=
    List.eq_replicate_of_mem fun x hx => h.spaced x (List.mem_append_left r hx) (ha x hx)
  cases r with
  | nil =>
    refine absurd ?_ h.last
    rw [List.append_nil] at hne ⊢
    rw [hspaces, spaces, List.getLast?_replicate, if_neg (mt List.length_eq_zero_iff.mp hne)]
  | cons c r =>
    obtain ⟨w, u, rfl, hw, hu⟩ := exists_span (fun x => !isSpace x) r
    simp only [Bool.not_eq_true', Bool.not_eq_false'] at hw hu
    refine ⟨a.length, c, w, u, ?_, List.forall_mem_cons.mpr ⟨hr c rfl, hw⟩, ?_, ?_⟩
    · rw [← hspaces, List.cons_append]
    · cases u with
      | nil => exact Or.inl rfl
      | cons x u =>
        have hx : x = ' ' := h.spaced x (by simp) (hu x rfl)
        exact Or.inr (congrArg some hx)
    · intro ht
      cases a with
      | nil =>
        obtain rfl : c = ' ' := by simpa using ht
        exact absurd (hr ' ' rfl) (by decide)
      | cons x a => exact Nat.succ_pos _

/-- **A plain scalar goes on to the end of its line**, where the next one is not indented deeper. -/
theorem plainRest_tail {t s : List Char} (h : PlainTail t) (ht : t = [] ∨ t.head? = some ' ')
    (hs : Solid s) {k p : Nat} (hk : k ≤ p) (i l : Nat) {c : Nat} (hc : p < c) :
    ∃ j, plainRest false (p + 1) ⟨t ++ '\n' :: (spaces k ++ s), i, l, c⟩
      = some (t, ⟨s, j, l + 1, k⟩, true) := by
  induction hn : t.length using Nat.strong_induction_on generalizing t i c with
  | _ n ih =>
  rcases ht with rfl | ht
  · have hskip : Cursor.skipWhile ⟨'\n' :: (spaces k ++ s), i, l, c⟩ isSpace
        = ⟨'\n' :: (spaces k ++ s), i, l, c⟩ := by simp [Cursor.skipWhile, Cursor.skip, isSpace]
    refine ⟨i + 1 + k, ?_⟩
    rw [plainRest_eq, List.nil_append, hskip, breaks_cons (by decide) (by decide) hs.unspaced,
      breaks_solid hs]
    simp [breakChar, Nat.lt_succ_of_le hk]
  -- a chunk behind no space would be part of the chunk before it, so `n` is not zero
  · obtain ⟨n, x, w, u, rfl, hw, hu, hpos⟩ := h.exists_chunk (by rintro rfl; cases ht)
    obtain ⟨n, rfl⟩ := Nat.exists_eq_succ_of_ne_zero (Nat.pos_iff_ne_zero.mp (hpos ht))
    obtain ⟨j, hrest⟩ := ih u.length (by simp [← hn]; omega)
      ((List.append_assoc _ _ _ ▸ h).of_append) hu (i + (n + 1) + (w.length + 1))
      (c := c + (n + 1) + (w.length + 1)) (by omega) rfl
    refine ⟨j, ?_⟩
    have hsolid : Solid (x :: w ++ (u ++ '\n' :: (spaces k ++ s))) :=
      solid_cons.mpr ⟨hw x List.mem_cons_self, h.unbroken x (by simp)⟩
    have hchunk : plainChunk false (x :: w ++ (u ++ '\n' :: (spaces k ++ s))) = some (x :: w) :=
      plainChunk_tail h.of_append hw (endsWord_of_space hu) rfl
    have hcomment := h.not_startsWith
    have hskip := Cursor.skip_append (x :: w) (u ++ '\n' :: (spaces k ++ s)) (i + (n + 1)) l
      (c + (n + 1))
    rw [List.append_assoc, List.append_assoc, plainRest_eq,
      Cursor.skipWhile_isSpace_spaces (n + 1) hsolid.unspaced, breaks_solid hsolid]
    simp only [takeWhile_isSpace_spaces (n + 1) hsolid.unspaced, hchunk]
    rw [if_neg (by simp [spaces]), if_neg (by simp; omega),
      if_neg (by rw [Cursor.atMarker_of_ne_zero (by simp)]; simpa [startsWith] using hcomment)]
    rw [List.length_cons] at hskip
    simp only [hskip, hrest]
    simp [separation]

/-- **A text that fits reads back as a plain scalar.** -/
theorem plainScalar_fits {t s : List Char} (ht : fitsPlain t = true) (hs : Solid s) {k p : Nat}
    (hk : k ≤ p) (i l : Nat) {c : Nat} (hc : p < c) :
    ∃ j, plainScalar false (p + 1) ⟨t ++ '\n' :: (spaces k ++ s), i, l, c⟩
      = some (t, ⟨s, j, l + 1, k⟩, true) := by
  have htail := PlainTail.of_fitsPlain ht
  have hstart : startsIndicator t = false ∧ t.head? ≠ some ' ' := by
    simp only [fitsPlain, Bool.and_eq_true, bne_iff_ne, ne_eq, Bool.not_eq_eq_eq_not,
      Bool.not_true] at ht
    exact ⟨ht.1.2, ht.1.1.1.2⟩
  obtain ⟨n, x, w, u, rfl, hw, hu, -⟩ := htail.exists_chunk (by rintro rfl; cases hstart.1)
  cases n with
  | succ n => exact absurd rfl hstart.2
  | zero =>
    obtain ⟨j, hrest⟩ := plainRest_tail htail.of_append.of_append hu hs hk (i + (x :: w).length) l
      (c := c + (x :: w).length) (by omega)
    refine ⟨j, ?_⟩
    have hchunk := plainChunk_tail (r := '\n' :: (spaces k ++ s)) htail.of_append hw
      (endsWord_of_space hu) rfl
    simp only [spaces, List.replicate_zero, List.nil_append, List.append_assoc] at hchunk hrest ⊢
    simp only [plainScalar, hchunk, Option.bind_eq_bind, Option.bind_some, Cursor.skip_append,
      hrest]
    rfl

/-- A plain scalar ends where something solid ends its chunk. -/
theorem plainRest_solid {s : List Char} (hs : Solid s) (flow : Bool) (margin i l c : Nat) :
    plainRest flow margin ⟨s, i, l, c⟩ = some ([], ⟨s, i, l, c⟩, false) := by
  have hspaces := takeWhile_isSpace_spaces 0 hs.unspaced
  have hskip := Cursor.skipWhile_isSpace_spaces 0 hs.unspaced i l c
  simp only [spaces, List.replicate_zero, List.nil_append, Nat.add_zero] at hspaces hskip
  rw [plainRest_eq, hskip, breaks_solid hs]
  simp [hspaces]

/-- A key is read up to its colon. -/
theorem plainScalar_key {w r : List Char}
    (hw : ∀ c ∈ w, isSpace c = false ∧ isBreak c = false ∧ c ≠ ':') (hr : endsWord r = true)
    (margin i l c : Nat) :
    plainScalar false margin ⟨w ++ ':' :: r, i, l, c⟩
      = some (w, ⟨':' :: r, i + w.length, l, c + w.length⟩, false) := by
  have hchunk : plainChunk false (w ++ ':' :: r) = some w := by
    refine plainChunk_append (fun c hc => ⟨(hw c hc).1, (hw c hc).2.1⟩) (fun a b hab => ?_) ?_
    · exact absurd rfl (hw ':' (by simp [hab])).2.2
    · simp [plainChunk, isSpace, isBreak, hr]
  have hcolon : Solid (':' :: r) := solid_cons.mpr ⟨by decide, by decide⟩
  simp only [plainScalar, hchunk, Option.bind_eq_bind, Option.bind_some, Cursor.skip_append,
    plainRest_solid hcolon]
  simp

end ImageRecipe.Yaml
