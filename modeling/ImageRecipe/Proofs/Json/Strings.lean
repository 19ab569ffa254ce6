import ImageRecipe.Json.Printer
import ImageRecipe.Json.Reader
import ImageRecipe.Proofs.Number.Digits
import Mathlib.Data.List.Basic
import Mathlib.Tactic.SplitIfs

/-!
# Written JSON strings read back

`pieces_flatMap_escape` says that reading undoes writing, whatever follows the
closing quote.  So a written string tells where it ends (`quoted_append_inj`),
and a written list of strings tells its items (`stringArray_injective`).
Nothing below `U+0020` is ever written, line breaks least of all.
-/

namespace ImageRecipe.Json

open Number

/-! ### Reading a character back -/

/-- The three ways in which a character is written: by a letter behind a backslash, by its number,
or as it is. -/
theorem escape_cases (c : Char) :
    (∃ a, escape c = ['\\', a] ∧ ' ' ≤ a ∧ a ≠ 'u' ∧ unescape a = some c) ∨
      (escape c = '\\' :: 'u' :: hexDigits 'a' 4 c.toNat ∧ c.toNat < 0x20) ∨
      (escape c = [c] ∧ c ≠ '"' ∧ c ≠ '\\' ∧ ' ' ≤ c) := by
  rw [escape]
  split_ifs with hq hb h8 ht hn hf hr hc
  · exact .inl ⟨_, rfl, by decide, by decide, by rw [hq]; rfl⟩
  · exact .inl ⟨_, rfl, by decide, by decide, by rw [hb]; rfl⟩
  · exact .inl ⟨_, rfl, by decide, by decide, by rw [h8]; rfl⟩
  · exact .inl ⟨_, rfl, by decide, by decide, by rw [ht]; rfl⟩
  · exact .inl ⟨_, rfl, by decide, by decide, by rw [hn]; rfl⟩
  · exact .inl ⟨_, rfl, by decide, by decide, by rw [hf]; rfl⟩
  · exact .inl ⟨_, rfl, by decide, by decide, by rw [hr]; rfl⟩
  · exact .inr (.inl ⟨rfl, hc⟩)
  · exact .inr (.inr ⟨rfl, hq, hb, Nat.le_of_not_lt hc⟩)

theorem pieces_unescape {a c : Char} (hu : a ≠ 'u') (ha : unescape a = some c) (r : List Char) :
    pieces ('\\' :: a :: r) = (pieces r).map fun x => (.char c :: x.1, x.2) := by
  rw [pieces.eq_4 _ _ fun _ _ _ _ _ h _ => hu h, ha]
  cases pieces r <;> rfl

/-- What stands for a character in a written string is read as one piece, which denotes it. -/
theorem exists_piece (c : Char) : ∃ p, (∀ ps, assemble (p :: ps) = (assemble ps).map (c :: ·)) ∧
    ∀ r, pieces (escape c ++ r) = (pieces r).map fun x => (p :: x.1, x.2) := by
  rcases escape_cases c with ⟨a, he, _, hu, ha⟩ | ⟨he, hc⟩ | ⟨he, hq, hb, hc⟩
  · exact ⟨.char c, fun _ => rfl, fun r => by rw [he]; exact pieces_unescape hu ha r⟩
  · -- a control is not half of a surrogate pair
    have hl : isLowUnit c.toNat = false := by simp [isLowUnit]; omega
    have hh : isHighUnit c.toNat = false := by simp [isHighUnit]; omega
    have hd : ofDigits? 16 (hexDigits 'a' 4 c.toNat) = some c.toNat :=
      ofDigits?_hexDigits (.inl rfl) (by decide) (by omega)
    refine ⟨.unit c.toNat, fun ps => ?_, fun r => ?_⟩
    · rw [assemble.eq_def]
      simp only [hl, hh, Char.ofNat_toNat]
      rfl
    · simp only [hexDigits] at hd
      simp only [he, hexDigits, List.cons_append, List.nil_append, pieces, hd]
      cases pieces r <;> rfl
  · have hlt : ¬c < ' ' := Nat.not_lt_of_le hc
    refine ⟨.char c, fun _ => rfl, fun r => ?_⟩
    rw [he, List.singleton_append, pieces.eq_5 _ _ hq (by simp [hb]) (by simp [hb])]
    simp only [hb, hlt, decide_false, Bool.false_or, beq_iff_eq, if_false]
    cases pieces r <;> rfl

/-- **A written string reads back**, up to its closing quote. -/
theorem pieces_flatMap_escape (s r : List Char) :
    ∃ ps, pieces (s.flatMap escape ++ '"' :: r) = some (ps, r) ∧ assemble ps = some s := by
  induction s with
  | nil => exact ⟨[], rfl, rfl⟩
  | cons c s ih =>
    obtain ⟨ps, hps, hs⟩ := ih
    obtain ⟨p, hp, hc⟩ := exists_piece c
    refine ⟨p :: ps, ?_, ?_⟩
    · rw [List.flatMap_cons, List.append_assoc, hc, hps]
      rfl
    · rw [hp, hs]
      rfl

/-! ### What is written tells what was meant -/

theorem quoted_append_inj {s t r u : List Char} (h : quoted s ++ r = quoted t ++ u) :
    s = t ∧ r = u := by
  obtain ⟨ps, hps, hs⟩ := pieces_flatMap_escape s r
  obtain ⟨qs, hqs, ht⟩ := pieces_flatMap_escape t u
  have hr : s.flatMap escape ++ '"' :: r = t.flatMap escape ++ '"' :: u := by
    simpa [quoted] using h
  rw [hr, hqs, Option.some.injEq, Prod.mk.injEq] at hps
  obtain ⟨rfl, rfl⟩ := hps
  exact ⟨Option.some.inj (hs.symm.trans ht), rfl⟩

theorem string_injective : Function.Injective string := by
  intro s t h
  have hl : quoted s.toList ++ [] = quoted t.toList ++ [] := by
    simpa [string, String.ofList_inj] using h
  exact String.toList_inj.mp (quoted_append_inj hl).1

/-- The items of a list behind the first one, up to the bracket. -/
def laterItems (xs : List (List Char)) : List Char :=
  xs.flatMap (fun x => ',' :: quoted x) ++ [']']

theorem laterItems_inj : ∀ {xs ys : List (List Char)}, laterItems xs = laterItems ys → xs = ys
  | [], [], _ => rfl
  | [], _ :: _, h => by simp [laterItems] at h
  | _ :: _, [], h => by simp [laterItems] at h
  | x :: xs, y :: ys, h => by
    simp only [laterItems, List.flatMap_cons, List.cons_append, List.cons.injEq, true_and,
      List.append_assoc] at h
    obtain ⟨rfl, hr⟩ := quoted_append_inj h
    rw [laterItems_inj hr]

theorem intercalate_comma (x : List Char) (xs : List (List Char)) :
    [','].intercalate (x :: xs) = x ++ xs.flatMap (',' :: ·) := by
  induction xs generalizing x with
  | nil => simp
  | cons y ys ih => rw [List.intercalate_cons_cons, ih, List.flatMap_cons]; simp

theorem array_cons (x : List Char) (xs : List (List Char)) :
    array ((x :: xs).map quoted) = '[' :: quoted x ++ laterItems xs := by
  simp [array, laterItems, intercalate_comma, List.flatMap_map]

theorem array_quoted_inj : ∀ {xs ys : List (List Char)},
    array (xs.map quoted) = array (ys.map quoted) → xs = ys
  | [], [], _ => rfl
  | [], _ :: _, h => by rw [array_cons] at h; simp [array, quoted] at h
  | _ :: _, [], h => by rw [array_cons] at h; simp [array, quoted] at h
  | x :: xs, y :: ys, h => by
    simp only [array_cons, List.cons_append, List.cons.injEq, true_and] at h
    obtain ⟨rfl, hr⟩ := quoted_append_inj h
    rw [laterItems_inj hr]

/-- **A written list of strings tells its items.** -/
theorem stringArray_injective : Function.Injective stringArray := by
  intro xs ys h
  have hl : array ((xs.map String.toList).map quoted)
      = array ((ys.map String.toList).map quoted) := by
    simpa [stringArray, Function.comp_def, String.ofList_inj] using h
  exact List.map_injective_iff.mpr (fun _ _ => String.toList_inj.mp) (array_quoted_inj hl)

/-! ### Only characters that show on a line are written -/

theorem le_of_mem_escape {c x : Char} (h : x ∈ escape c) : ' ' ≤ x := by
  rcases escape_cases c with ⟨a, he, hle, _⟩ | ⟨he, _⟩ | ⟨he, _, _, hle⟩ <;> rw [he] at h
  · rcases List.mem_cons.mp h with rfl | h
    · decide
    · rwa [List.mem_singleton.mp h]
  · rcases List.mem_cons.mp h with rfl | h
    · decide
    rcases List.mem_cons.mp h with rfl | h
    · decide
    obtain ⟨d, hd, rfl⟩ := exists_of_mem_hexDigits h
    exact (by decide : ∀ d < 16, ' ' ≤ if d < 10 then Char.ofNat ('0'.toNat + d)
      else Char.ofNat ('a'.toNat + d - 10)) d hd
  · rwa [List.mem_singleton.mp h]

theorem le_of_mem_quoted {s : List Char} {x : Char} (h : x ∈ quoted s) : ' ' ≤ x := by
  simp only [quoted, List.cons_append, List.mem_cons, List.mem_append, List.mem_flatMap,
    List.not_mem_nil, or_false] at h
  rcases h with rfl | ⟨c, _, h⟩ | rfl
  · decide
  · exact le_of_mem_escape h
  · decide

theorem le_of_mem_array {xs : List (List Char)} {x : Char} (h : x ∈ array (xs.map quoted)) :
    ' ' ≤ x := by
  cases xs with
  | nil =>
    have hx : x = '[' ∨ x = ']' := by simpa [array] using h
    rcases hx with rfl | rfl <;> decide
  | cons y ys =>
    rw [array_cons] at h
    simp only [laterItems, List.cons_append, List.mem_cons, List.mem_append, List.mem_flatMap,
      List.not_mem_nil, or_false] at h
    rcases h with rfl | h | ⟨_, _, rfl | h⟩ | rfl
    · decide
    · exact le_of_mem_quoted h
    · decide
    · exact le_of_mem_quoted h
    · decide

theorem le_of_mem_string {s : String} {x : Char} (h : x ∈ (string s).toList) : ' ' ≤ x :=
  le_of_mem_quoted (by simpa [string] using h)

theorem le_of_mem_stringArray {xs : List String} {x : Char} (h : x ∈ (stringArray xs).toList) :
    ' ' ≤ x := by
  have hx : x ∈ array ((xs.map String.toList).map quoted) := by
    simpa [stringArray, Function.comp_def] using h
  exact le_of_mem_array hx

end ImageRecipe.Json
