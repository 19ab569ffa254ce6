import ImageRecipe.Proofs.Yaml.Cursor
import ImageRecipe.Yaml.BlockScalar
import Mathlib.Data.List.TakeWhile

/-!
# Literal blocks read back

The lines of a literal block are read one after the other: a line, its end, and
the empty lines up to the next line.  What is left of the text after a line is
again a text of printable characters, so the induction is on its length.

The breaks at the end of the text are read like all others and set apart only
because no line follows them.  Which of them stay is then up to the header, and
`literalHeader` has looked at the same breaks.
-/

namespace ImageRecipe.Yaml

/-- The breaks of a printable text are line feeds and separators. -/
theorem break_of_printable {c : Char} (hp : isPrintable c = true) (hc : isBreak c = true) :
    c ≠ '\r' ∧ breakChar c = c := by
  simp only [isBreak, Bool.or_eq_true, beq_iff_eq] at hc
  rcases hc with (((rfl | rfl) | rfl) | rfl) | rfl
  · decide
  · exact absurd hp (by decide)
  · exact absurd hp (by decide)
  · decide
  · decide

theorem ne_tab_of_printable {c : Char} (hp : isPrintable c = true) : c ≠ '\t' :=
  ne_of_class hp (by decide)

/-! ### Empty lines -/

namespace Cursor

/-- Where the spaces end before the limit, all of them count. -/
theorem indented_of_head (limit : Option Nat) {k : Nat} (hk : ∀ n ∈ limit, k ≤ n) {s : List Char}
    (hs : s.head? ≠ some ' ') (i l : Nat) :
    indented limit ⟨spaces k ++ s, i, l, 0⟩ = ⟨s, i + k, l, k⟩ := by
  have hspaces : (spaces k ++ s).takeWhile (· == ' ') = spaces k :=
    takeWhile_append_stop (fun c hc => by simp [List.eq_of_mem_replicate hc])
      fun c hc => by simpa using fun h : c = ' ' => hs (h ▸ hc)
  have hskip := skip_append (spaces k) s i l 0
  rw [length_spaces, Nat.zero_add] at hskip
  cases limit with
  | none => simp only [indented, hspaces, length_spaces, hskip]
  | some n =>
    simp only [indented, hspaces, length_spaces, Nat.sub_zero, Nat.min_eq_left (hk n rfl), hskip]

/-- At the limit the rest of the line begins, with whatever it begins. -/
theorem indented_some (k : Nat) (s : List Char) (i l : Nat) :
    indented (some k) ⟨spaces k ++ s, i, l, 0⟩ = ⟨s, i + k, l, k⟩ := by
  have hle : k ≤ ((spaces k ++ s).takeWhile (· == ' ')).length := by
    rw [List.takeWhile_append_of_pos fun c hc => by simp [List.eq_of_mem_replicate hc]]
    simp
  have hskip := skip_append (spaces k) s i l 0
  rw [length_spaces, Nat.zero_add] at hskip
  simp only [indented, Nat.sub_zero, Nat.min_eq_right hle, hskip]

end Cursor

theorem emptyLines_stop {limit : Option Nat} {c d : Cursor} (hd : c.indented limit = d)
    (hs : ∀ ch ∈ d.rest.head?, ch ≠ '\t' ∧ isBreak ch = false) :
    emptyLines limit c = some ([], d.column, d) := by
  subst hd
  rw [emptyLines]
  split
  · rfl
  · next ch r h =>
    obtain ⟨htab, hbreak⟩ := hs ch (by rw [h]; rfl)
    simp [htab, hbreak]

theorem emptyLines_break {limit : Option Nat} {c : Cursor} {b : Char} {r : List Char}
    {i l k : Nat} (hd : c.indented limit = ⟨b :: r, i, l, k⟩) (hb : isBreak b = true)
    (hr : b ≠ '\r') : emptyLines limit c
      = (emptyLines limit ⟨r, i + 1, l + 1, 0⟩).map
        fun t => (breakChar b :: t.1, max k t.2.1, t.2.2) := by
  have htab : b ≠ '\t' := by rintro rfl; cases hb
  rw [emptyLines]
  split
  · next h => rw [hd] at h; cases h
  · next ch r' h =>
    obtain ⟨rfl, rfl⟩ : ch = b ∧ r' = r := by simpa [hd, eq_comm] using h
    rw [hd, Cursor.newline_cons hr, if_neg (by simp [htab]), if_neg (by simp [hb])]
    cases emptyLines limit ⟨r', i + 1, l + 1, 0⟩ <;> rfl

/-- The place behind empty lines: the first character of a line, or the next text when no line is
left. -/
def behindEmpty (n : Nat) (u : List Char) (k : Nat) (s : List Char) (i l : Nat) : Cursor :=
  match u with
  | [] => ⟨s, i, l, k⟩
  | c :: u => ⟨literalBody n false (c :: u) ++ (spaces k ++ s), i, l, n⟩

/-- The empty lines before a line, when the indentation is known. -/
theorem emptyLines_literalBody {bs u s : List Char} (hprint : ∀ c ∈ bs ++ u, isPrintable c = true)
    (hbs : ∀ c ∈ bs, isBreak c = true) (hu : ∀ c ∈ u.head?, isBreak c = false)
    (hs : Solid s) {k n : Nat} (hk : k ≤ n) (i l : Nat) :
    ∃ w j m, emptyLines (some n) ⟨literalBody n true (bs ++ u) ++ (spaces k ++ s), i, l, 0⟩
      = some (bs, w, behindEmpty n u k s j m) := by
  induction bs generalizing i l with
  | nil =>
    cases u with
    | nil =>
      have hd := Cursor.indented_of_head (some n) (k := k) (by simpa using hk)
        (s := s) (fun h => by simpa [isSpace] using (hs ' ' h).1) i l
      exact ⟨_, _, _, emptyLines_stop hd fun ch hch =>
        ⟨fun h => by simpa [isSpace, h] using (hs ch hch).1, (hs ch hch).2⟩⟩
    | cons c t =>
      have hb : isBreak c = false := hu c rfl
      have hd := Cursor.indented_some n (c :: (literalBody n false t ++ (spaces k ++ s))) i l
      have hbody : literalBody n true (c :: t) ++ (spaces k ++ s)
          = spaces n ++ c :: (literalBody n false t ++ (spaces k ++ s)) := by
        simp [literalBody, hb, indentation]
      refine ⟨n, i + n, l, ?_⟩
      rw [List.nil_append, hbody, emptyLines_stop hd fun ch hch => ?_]
      · simp [behindEmpty, hb, literalBody, indentation]
      · obtain rfl : c = ch := by simpa using hch
        exact ⟨ne_tab_of_printable (hprint c List.mem_cons_self), hb⟩
  | cons b bs ih =>
    rw [List.forall_mem_cons] at hbs
    rw [List.cons_append, List.forall_mem_cons] at hprint
    obtain ⟨hr, hchar⟩ := break_of_printable hprint.1 hbs.1
    obtain ⟨w, j, m, hrest⟩ := ih hprint.2 hbs.2 (i + 1) (l + 1)
    have hspace : b ≠ ' ' := ne_of_class hbs.1 (by decide)
    have hd : Cursor.indented (some n)
        ⟨b :: (literalBody n true (bs ++ u) ++ (spaces k ++ s)), i, l, 0⟩
          = ⟨b :: (literalBody n true (bs ++ u) ++ (spaces k ++ s)), i, l, 0⟩ := by
      simpa [spaces] using Cursor.indented_of_head (some n) (k := 0) (by simp)
        (s := b :: (literalBody n true (bs ++ u) ++ (spaces k ++ s))) (by simpa using hspace) i l
    refine ⟨max 0 w, j, m, ?_⟩
    rw [List.cons_append, literalBody, if_pos hbs.1, List.cons_append,
      emptyLines_break hd hbs.1 hr, hrest, hchar]
    rfl

/-! ### Lines -/

/-- The equation of `blockLines` for literal blocks, without the proofs that it ends. -/
theorem blockLines_eq (n : Nat) (spaced : Bool) (before : List Char × List Char) (c : Cursor) :
    blockLines true n spaced before c =
      match c.rest with
      | [] => some ([], before, c)
      | ch :: r =>
        if c.column ≠ n then some ([], before, c)
        else
          let line := (ch :: r).takeWhile fun x => !isBreak x
          match (c.skip line.length).rest with
          | [] => some (before.1 ++ before.2 ++ line, ([], []), c.skip line.length)
          | e :: _ =>
            (emptyLines (some n) (c.skip line.length).newline).bind fun t =>
              (blockLines true n (isSpace ch) ([breakChar e], t.1) t.2.2).map
                fun u => (before.1 ++ before.2 ++ (line ++ u.1), u.2) := by
  rw [blockLines]
  split
  · next h => simp only [h]
  · next ch r h =>
    simp only [h]
    split
    · rfl
    · split
      · next h' => simp only [h']; rfl
      · next e r' h' =>
        simp only [h']
        split
        · next h'' => simp only [h'']; rfl
        · next bs w f h'' =>
          simp only [h'', Option.bind_some]
          split
          · next h₃ => simp only [h₃]; rfl
          · next text after g h₃ => simp [h₃]

theorem blockLines_stop {n k : Nat} (hk : k ≠ n) (spaced : Bool) (before : List Char × List Char)
    (s : List Char) (i l : Nat) :
    blockLines true n spaced before ⟨s, i, l, k⟩ = some ([], before, ⟨s, i, l, k⟩) := by
  rw [blockLines_eq]
  cases s with
  | nil => rfl
  | cons ch r => exact if_pos hk

/-- A line, its end, and the empty lines behind it. -/
theorem blockLines_line {n : Nat} {line : List Char} (hline : ∀ c ∈ line, isBreak c = false)
    (hne : line ≠ []) {b : Char} (hb : isBreak b = true) (hr : b ≠ '\r') {r bs : List Char}
    {i l w : Nat} {f : Cursor}
    (hempty : emptyLines (some n) ⟨r, i + line.length + 1, l + 1, 0⟩ = some (bs, w, f))
    (spaced : Bool) (before : List Char × List Char) :
    ∃ spaced', blockLines true n spaced before ⟨line ++ b :: r, i, l, n⟩
      = (blockLines true n spaced' ([breakChar b], bs) f).map
          fun t => (before.1 ++ before.2 ++ (line ++ t.1), t.2) := by
  cases line with
  | nil => exact absurd rfl hne
  | cons x line =>
    refine ⟨isSpace x, ?_⟩
    have htake : (x :: line ++ b :: r).takeWhile (fun c => !isBreak c) = x :: line :=
      takeWhile_append_stop (by simpa using hline) (by simp [hb])
    have hskip := Cursor.skip_append (x :: line) (b :: r) i l n
    simp only [List.cons_append] at htake hskip ⊢
    rw [blockLines_eq]
    simp only [htake, hskip, Cursor.newline_cons hr, hempty, ne_eq, not_true, if_false,
      Option.bind_some, List.cons_append]

/-! ### Whole texts -/

/-- How a text ends: what stands before the breaks at its end, the first of these, and the
others.  A text that ends without a break is written with a line feed. -/
inductive Ended : List Char → List Char → List Char × List Char → Prop
  | unbroken {u : List Char} : u ≠ [] → (∀ c ∈ u.getLast?, isBreak c = false) →
    Ended u u (['\n'], [])
  | broken {u bs : List Char} {b : Char} : u ≠ [] → (∀ c ∈ u.getLast?, isBreak c = false) →
    (∀ c ∈ b :: bs, isBreak c = true) → Ended (u ++ b :: bs) u ([b], bs)

theorem Ended.append {u text : List Char} {after : List Char × List Char}
    (h : Ended u text after) (s : List Char) : Ended (s ++ u) (s ++ text) after := by
  have hlast : ∀ t : List Char, t ≠ [] → (s ++ t).getLast? = t.getLast? := by
    intro t ht
    rw [List.getLast?_append, List.getLast?_eq_some_getLast ht, Option.some_or]
  cases h with
  | unbroken hne hend => exact .unbroken (by simp [hne]) (by rwa [hlast _ hne])
  | broken hne hend hbs =>
    rw [← List.append_assoc]
    exact .broken (by simp [hne]) (by rwa [hlast _ hne]) hbs

theorem literalBody_append (n : Nat) {line : List Char} (hline : ∀ c ∈ line, isBreak c = false)
    (u : List Char) : literalBody n false (line ++ u) = line ++ literalBody n false u := by
  induction line with
  | nil => rfl
  | cons c line ih =>
    rw [List.cons_append, literalBody, hline c List.mem_cons_self,
      ih fun x hx => hline x (List.mem_cons_of_mem c hx)]
    simp [indentation]

/-- A text that is one line without an end. -/
theorem blockLines_lastLine {line s : List Char} (hline : ∀ c ∈ line, isBreak c = false)
    (hne : line ≠ []) (hs : Solid s) {k n : Nat} (hk : k < n) (spaced : Bool)
    (before : List Char × List Char) (i l : Nat) :
    ∃ j m, blockLines true n spaced before ⟨literalBody n false line ++ (spaces k ++ s), i, l, n⟩
      = some (before.1 ++ before.2 ++ line, (['\n'], []), ⟨s, j, m, k⟩) := by
  have hbody : literalBody n false line = line ++ ['\n'] := by
    simpa [literalBody] using literalBody_append n hline []
  have hempty := emptyLines_stop (Cursor.indented_of_head (some n) (by simpa using hk.le)
    (s := s) (fun h => by simpa [isSpace] using (hs ' ' h).1) (i + line.length + 1) (l + 1))
    fun ch hch => ⟨fun h => by simpa [isSpace, h] using (hs ch hch).1, (hs ch hch).2⟩
  obtain ⟨spaced', hrun⟩ := blockLines_line hline hne (b := '\n') rfl (by decide) hempty spaced
    before
  refine ⟨i + line.length + 1 + k, l + 1, ?_⟩
  rw [hbody, List.append_assoc, List.singleton_append, hrun, blockLines_stop hk.ne]
  simp [breakChar]

/-- **The lines of a literal block read back.** -/
theorem blockLines_literalBody {u s : List Char} (hprint : ∀ c ∈ u, isPrintable c = true)
    (hne : u ≠ []) (hhead : ∀ c ∈ u.head?, isBreak c = false) (hs : Solid s) {k n : Nat}
    (hk : k < n) (spaced : Bool) (before : List Char × List Char) (i l : Nat) :
    ∃ text after j m,
      blockLines true n spaced before ⟨literalBody n false u ++ (spaces k ++ s), i, l, n⟩
        = some (before.1 ++ before.2 ++ text, after, ⟨s, j, m, k⟩) ∧ Ended u text after := by
  -- one round reads a line, the break that ends it and the empty lines behind, so the induction
  -- is on the length of the text and not on the text
  induction hlen : u.length using Nat.strong_induction_on generalizing u spaced before i l with
  | _ len ih =>
  obtain ⟨line, v, rfl, hline, hv⟩ := exists_span (fun c => !isBreak c) u
  simp only [Bool.not_eq_true', Bool.not_eq_false'] at hline hv
  have hline_ne : line ≠ [] := by
    rintro rfl
    obtain ⟨b, v, rfl⟩ := List.exists_cons_of_ne_nil hne
    exact ne_of_class (hv b rfl) (hhead b rfl) rfl
  have hlast : ∀ c ∈ line.getLast?, isBreak c = false :=
    fun c hc => hline c (List.mem_of_mem_getLast? hc)
  cases v with
  | nil =>
    rw [List.append_nil]
    obtain ⟨j, m, hrun⟩ := blockLines_lastLine hline hline_ne hs hk spaced before i l
    exact ⟨line, (['\n'], []), j, m, hrun, .unbroken hline_ne hlast⟩
  | cons b v =>
    have hb : isBreak b = true := hv b rfl
    obtain ⟨hr, hchar⟩ := break_of_printable (hprint b (by simp)) hb
    have hbody : literalBody n false (line ++ b :: v) = line ++ b :: literalBody n true v := by
      rw [literalBody_append n hline, literalBody, if_pos hb]
    have hprint' : ∀ c ∈ v, isPrintable c = true := by
      intro c hc
      exact hprint c (by simp [hc])
    obtain ⟨bs, x, rfl, hbs, hx⟩ := exists_span isBreak v
    obtain ⟨w, j, m, hempty⟩ := emptyLines_literalBody hprint' hbs hx hs hk.le
      (i + line.length + 1) (l + 1)
    obtain ⟨spaced', hrun⟩ := blockLines_line hline hline_ne hb hr hempty spaced before
    rw [hbody, List.append_assoc, List.cons_append, hrun, hchar]
    cases x with
    | nil =>
      refine ⟨line, ([b], bs), j, m, ?_, ?_⟩
      · simp [behindEmpty, blockLines_stop hk.ne]
      · simpa using Ended.broken hline_ne hlast (List.forall_mem_cons.mpr ⟨hb, hbs⟩)
    | cons x u =>
      obtain ⟨text, after, j', m', hrest, hend⟩ := ih (x :: u).length (by simp [← hlen]; omega)
        (fun c hc => hprint' c (List.mem_append_right bs hc)) (List.cons_ne_nil x u) hx spaced'
        ([b], bs) j m rfl
      refine ⟨line ++ (b :: bs ++ text), after, j', m', ?_, ?_⟩
      · rw [behindEmpty, hrest]
        simp
      · simpa using (hend.append (b :: bs)).append line

/-! ### Headers -/

def indentNumber (t : List Char) : Option Nat :=
  match t with
  | c :: _ => if c = ' ' || isBreak c then some 2 else none
  | [] => none

def endChomp (t : List Char) : Chomp :=
  match t.reverse with
  | [] => .strip
  | [c] => if isBreak c then .keep else .strip
  | c :: d :: _ => if !isBreak c then .strip else if isBreak d then .keep else .clip

def chompMark : Chomp → List Char
  | .strip => ['-']
  | .keep => ['+']
  | .clip => []

theorem literalHeader_eq (t : List Char) :
    literalHeader t = (indentNumber t).elim [] (fun _ => ['2']) ++ chompMark (endChomp t) := by
  unfold literalHeader
  dsimp only
  congr 1
  · unfold indentNumber
    cases t with
    | nil => rfl
    | cons c r =>
      dsimp only
      split <;> rfl
  · unfold endChomp
    rcases t.reverse with _ | ⟨c, _ | ⟨d, r⟩⟩
    · rfl
    · dsimp only
      split <;> rfl
    · dsimp only
      split
      · rfl
      · split <;> rfl

theorem blockHeader_literalHeader (t r : List Char) :
    blockHeader (literalHeader t ++ '\n' :: r)
      = some (endChomp t, indentNumber t, (literalHeader t).length) := by
  have hnumber : indentNumber t = none ∨ indentNumber t = some 2 := by
    unfold indentNumber
    split
    · split
      · exact Or.inr rfl
      · exact Or.inl rfl
    · exact Or.inl rfl
  rw [literalHeader_eq]
  rcases hnumber with hn | hn <;> rw [hn] <;> cases endChomp t <;>
    simp [chompMark, blockHeader, headerChomp, headerDigit]

def chomped (chomp : Chomp) (text : List Char) (after : List Char × List Char) : List Char :=
  match chomp with
  | .strip => text
  | .clip => text ++ after.1
  | .keep => text ++ after.1 ++ after.2

theorem endChomp_of_breaks {t : List Char} (hne : t ≠ []) (ht : ∀ c ∈ t, isBreak c = true) :
    endChomp t = .keep := by
  have hr : ∀ c ∈ t.reverse, isBreak c = true := by
    intro c hc
    exact ht c (List.mem_reverse.mp hc)
  unfold endChomp
  split
  · next h => exact absurd (List.reverse_eq_nil_iff.mp h) hne
  · next c h => simp [hr c (by simp [h])]
  · next c d _ h => simp [hr c (by simp [h]), hr d (by simp [h])]

/-- The header keeps of the breaks at the end those that the text has. -/
theorem Ended.chomped {t text : List Char} {after : List Char × List Char}
    (h : Ended t text after) : chomped (endChomp t) text after = t := by
  cases h with
  | unbroken hne hlast =>
    have hstrip : endChomp t = .strip := by
      rw [← List.head?_reverse] at hlast
      unfold endChomp
      split
      · rfl
      · next c h => simp [hlast c (by simp [h])]
      · next c d _ h => simp [hlast c (by simp [h])]
    rw [hstrip]
    rfl
  | broken hne hlast hbs =>
    rename_i bs b
    have hb := hbs b List.mem_cons_self
    have hrev : (text ++ b :: bs).reverse = bs.reverse ++ b :: text.reverse := by simp
    rw [← List.head?_reverse] at hlast
    unfold endChomp
    rw [hrev]
    cases hr : bs.reverse with
    | nil =>
      rw [List.reverse_eq_nil_iff.mp hr]
      cases hu : text.reverse with
      | nil => exact absurd (List.reverse_eq_nil_iff.mp hu) hne
      | cons d r => simp [hb, hlast d (by simp [hu]), Yaml.chomped]
    | cons c r =>
      have hc : ∀ x ∈ c :: r, isBreak x = true := by
        intro x hx
        exact hbs x (List.mem_cons_of_mem b (List.mem_reverse.mp (hr ▸ hx)))
      cases r with
      | nil => simp [hb, hc c (by simp), Yaml.chomped]
      | cons d r => simp [hc c (by simp), hc d (by simp), Yaml.chomped]

/-! ### Whole scalars -/

/-- The place behind the empty lines that a literal block starts with, and its indentation. -/
theorem emptyLines_start {bs u s : List Char} (hprint : ∀ c ∈ bs ++ u, isPrintable c = true)
    (hne : bs ++ u ≠ []) (hbs : ∀ c ∈ bs, isBreak c = true)
    (hu : ∀ c ∈ u.head?, isBreak c = false) (hs : Solid s) {k p : Nat} (hk : k ≤ p) (i l : Nat) :
    ∃ w j m, emptyLines ((indentNumber (bs ++ u)).map fun x => p + x)
        ⟨literalBody (p + 2) true (bs ++ u) ++ (spaces k ++ s), i, l, 0⟩
      = some (bs, w, behindEmpty (p + 2) u k s j m) ∧
      ((indentNumber (bs ++ u)).map fun x => p + x).getD (max w (max (p + 1) 1)) = p + 2 := by
  by_cases hc : indentNumber (bs ++ u) = some 2
  · obtain ⟨w, j, m, hempty⟩ := emptyLines_literalBody hprint hbs hu hs (k := k) (n := p + 2)
      (by omega) i l
    rw [hc]
    exact ⟨w, j, m, hempty, rfl⟩
  · cases bs with
    | cons b bs =>
      have hb : isBreak b = true := hbs b List.mem_cons_self
      exact absurd (by simp [indentNumber, hb]) hc
    | nil =>
      obtain ⟨c, r, rfl⟩ := List.exists_cons_of_ne_nil hne
      have hbreak : isBreak c = false := hu c rfl
      have hspace : c ≠ ' ' := by
        intro h
        exact hc (by simp [indentNumber, h])
      have hnumber : indentNumber ([] ++ c :: r) = none := by simp [indentNumber, hspace, hbreak]
      have hbody : literalBody (p + 2) true ([] ++ c :: r) ++ (spaces k ++ s)
          = spaces (p + 2) ++ c :: (literalBody (p + 2) false r ++ (spaces k ++ s)) := by
        simp [literalBody, hbreak, indentation]
      have hd := Cursor.indented_of_head none (k := p + 2) (by simp)
        (s := c :: (literalBody (p + 2) false r ++ (spaces k ++ s))) (by simpa using hspace) i l
      refine ⟨p + 2, i + (p + 2), l, ?_, ?_⟩
      · rw [hnumber, hbody, Option.map_none, emptyLines_stop hd fun ch hch => ?_]
        · simp [behindEmpty, hbreak, literalBody, indentation]
        · obtain rfl : c = ch := by simpa using hch
          exact ⟨ne_tab_of_printable (hprint c List.mem_cons_self), hbreak⟩
      · rw [hnumber, Option.map_none, Option.getD_none]
        omega

/-- **A printable text reads back from a literal block.** -/
theorem blockScalar_literal {t s : List Char} (ht : ∀ c ∈ t, isPrintable c = true) (hne : t ≠ [])
    (hs : Solid s) {k p : Nat} (hk : k ≤ p) (i l c : Nat) :
    ∃ j m, blockScalar true (p + 1)
        ⟨'|' :: (literalHeader t ++ '\n' :: (literalBody (p + 2) true t ++ (spaces k ++ s))),
          i, l, c⟩
      = some (t, ⟨s, j, m, k⟩) := by
  have hheader : ∀ r : List Char, ((Cursor.skip ⟨'|' :: (literalHeader t ++ '\n' :: r), i, l, c⟩
      ((literalHeader t).length + 1)).skipWhile isSpace).skipComment
        = ⟨'\n' :: r, i + ((literalHeader t).length + 1), l,
          c + ((literalHeader t).length + 1)⟩ := by
    intro r
    have hskip := Cursor.skip_append ('|' :: literalHeader t) ('\n' :: r) i l c
    rw [List.cons_append, List.length_cons] at hskip
    rw [hskip]
    simp [Cursor.skipWhile, Cursor.skip, Cursor.skipComment, startsWith, isSpace]
  obtain ⟨bs, u, rfl, hbs, hu⟩ := exists_span isBreak t
  obtain ⟨w, j, m, hempty, hindent⟩ := emptyLines_start ht hne hbs hu hs hk
    (i + ((literalHeader (bs ++ u)).length + 1) + 1) (l + 1)
  rw [blockScalar, List.drop_one, List.tail_cons, blockHeader_literalHeader]
  simp only [hheader, Cursor.newline_cons (show '\n' ≠ '\r' by decide), Nat.add_sub_cancel, hempty,
    hindent]
  cases u with
  | nil =>
    rw [List.append_nil] at hne ⊢
    refine ⟨j, m, ?_⟩
    simp [behindEmpty, endsLine, isBreak, blockLines_stop (show k ≠ p + 2 by omega),
      endChomp_of_breaks hne hbs]
  | cons x u =>
    obtain ⟨text, after, j', m', hrest, hend⟩ := blockLines_literalBody
      (fun c hc => ht c (List.mem_append_right bs hc)) (List.cons_ne_nil x u) hu hs
      (show k < p + 2 by omega) false ([], bs) j m
    refine ⟨j', m', ?_⟩
    have hchomp := (hend.append bs).chomped
    simp only [behindEmpty, hrest]
    generalize endChomp (bs ++ x :: u) = chomp at hchomp
    cases chomp <;> simpa [endsLine, isBreak, chomped] using hchomp

end ImageRecipe.Yaml
