import ImageRecipe.Yaml.Printer

/-!
# Spaces and line ends

How a cursor passes the spaces and the line ends between two pieces of text.
All that is asked of the next piece is what it starts with: something `Solid`,
that is no space and no line end, or, where the next token is looked for,
something that is no comment either.
-/

namespace ImageRecipe.Yaml

/-- Two characters are different if one is in a class and the other is not. -/
theorem ne_of_class {p : Char → Bool} {c d : Char} (hc : p c = true) (hd : p d = false) :
    c ≠ d := by
  rintro rfl
  rw [hc] at hd
  cases hd

/-- The text starts with neither a space nor the end of a line. -/
def Solid (s : List Char) : Prop :=
  ∀ c ∈ s.head?, isSpace c = false ∧ isBreak c = false

/-- The text ends here, or the next token starts. -/
def Content (s : List Char) : Prop :=
  ∀ c ∈ s.head?, isSpace c = false ∧ isBreak c = false ∧ c ≠ '#' ∧ c ≠ '\ufeff'

theorem Content.solid {s : List Char} (h : Content s) : Solid s :=
  fun c hc => ⟨(h c hc).1, (h c hc).2.1⟩

theorem content_nil : Content [] := by
  simp [Content]

theorem solid_cons {c : Char} {r : List Char} :
    Solid (c :: r) ↔ isSpace c = false ∧ isBreak c = false := by
  simp [Solid]

theorem content_cons {c : Char} {r : List Char} :
    Content (c :: r) ↔ isSpace c = false ∧ isBreak c = false ∧ c ≠ '#' ∧ c ≠ '\ufeff' := by
  simp [Content]

def Unspaced (s : List Char) : Prop :=
  ∀ c ∈ s.head?, isSpace c = false

theorem Solid.unspaced {s : List Char} (h : Solid s) : Unspaced s :=
  fun c hc => (h c hc).1

/-! ### Spaces -/

@[simp] theorem length_spaces (k : Nat) : (spaces k).length = k :=
  List.length_replicate

theorem isSpace_of_mem_spaces {k : Nat} {c : Char} (h : c ∈ spaces k) : isSpace c = true := by
  rw [List.eq_of_mem_replicate h]; rfl

theorem takeWhile_append_stop {p : Char → Bool} {s r : List Char} (hs : ∀ c ∈ s, p c = true)
    (hr : ∀ c ∈ r.head?, p c = false) : (s ++ r).takeWhile p = s := by
  rw [List.takeWhile_append_of_pos hs]
  cases r with
  | nil => simp
  | cons c r => rw [List.takeWhile_cons_of_neg (by simp [hr c rfl]), List.append_nil]

/-- A text from the start of which the characters of a class are split off. -/
theorem exists_span (p : Char → Bool) (t : List Char) :
    ∃ s r, t = s ++ r ∧ (∀ c ∈ s, p c = true) ∧ ∀ c ∈ r.head?, p c = false := by
  induction t with
  | nil => exact ⟨[], [], rfl, by simp, by simp⟩
  | cons c t ih =>
    by_cases hc : p c = true
    · obtain ⟨s, r, rfl, hs, hr⟩ := ih
      exact ⟨c :: s, r, rfl, List.forall_mem_cons.mpr ⟨hc, hs⟩, hr⟩
    · exact ⟨[], c :: t, rfl, by simp, by simpa using hc⟩

theorem takeWhile_isSpace_spaces (k : Nat) {s : List Char} (hs : Unspaced s) :
    (spaces k ++ s).takeWhile isSpace = spaces k :=
  takeWhile_append_stop (fun _ => isSpace_of_mem_spaces) hs

namespace Cursor

theorem skip_append (s r : List Char) (i l c : Nat) :
    skip ⟨s ++ r, i, l, c⟩ s.length = ⟨r, i + s.length, l, c + s.length⟩ := by
  simp [skip]

theorem skipWhile_append {p : Char → Bool} {s r : List Char} (hs : ∀ c ∈ s, p c = true)
    (hr : ∀ c ∈ r.head?, p c = false) (i l c : Nat) :
    skipWhile ⟨s ++ r, i, l, c⟩ p = ⟨r, i + s.length, l, c + s.length⟩ := by
  rw [skipWhile, takeWhile_append_stop hs hr, skip_append]

theorem skipWhile_isSpace_spaces (k : Nat) {s : List Char} (hs : Unspaced s) (i l c : Nat) :
    skipWhile ⟨spaces k ++ s, i, l, c⟩ isSpace = ⟨s, i + k, l, c + k⟩ := by
  rw [skipWhile_append (fun _ => isSpace_of_mem_spaces) hs, length_spaces]

theorem atMarker_of_ne_zero {c : Cursor} (h : c.column ≠ 0) : c.atMarker = false := by
  simp [atMarker, h]

/-! ### Line ends -/

theorem newline_cons {ch : Char} (h : ch ≠ '\r') (r : List Char) (i l c : Nat) :
    newline ⟨ch :: r, i, l, c⟩ = ⟨r, i + 1, l + 1, 0⟩ := by
  unfold newline
  split
  · next hr => exact absurd (List.cons.inj hr).1 h
  · next hr => rw [(List.cons.inj hr).2]
  · next hr => cases hr

end Cursor

theorem breaks_solid {s : List Char} (hs : Solid s) (margin i l c : Nat) :
    breaks margin ⟨s, i, l, c⟩ = some ([], ⟨s, i, l, c⟩) := by
  rw [breaks]
  cases s with
  | nil => rfl
  | cons ch r => simp [(hs ch rfl).2]

/-- A line end and the indentation of the line that it starts. -/
theorem breaks_cons {b : Char} (hb : isBreak b = true) (hr : b ≠ '\r') {k : Nat} {s : List Char}
    (hs : Unspaced s) (margin i l c : Nat) :
    breaks margin ⟨b :: (spaces k ++ s), i, l, c⟩
      = (breaks margin ⟨s, i + 1 + k, l + 1, k⟩).map fun t => (breakChar b :: t.1, t.2) := by
  have htab : ((spaces k).take margin).contains '\t' = false := by
    rw [List.contains_eq_mem, decide_eq_false_iff_not]
    intro h
    exact absurd (List.eq_of_mem_replicate (List.mem_of_mem_take h)) (by decide)
  rw [breaks]
  simp only [hb, Bool.not_true, Bool.false_eq_true, if_false, Cursor.newline_cons hr,
    takeWhile_isSpace_spaces k hs, htab, Cursor.skipWhile_isSpace_spaces k hs, Nat.zero_add]
  cases breaks margin ⟨s, i + 1 + k, l + 1, k⟩ <;> rfl

end ImageRecipe.Yaml
