import ImageRecipe.Proofs.Yaml.JsonText
import ImageRecipe.Yaml.Scan

/-!
# Texts that YAML keeps

`Unfolded` says of a text that YAML neither folds nor refuses anything in it when
it stands in JSON, and `heardFrom_eq_self_iff` that these are just the texts of
which it hears what they are.  The induction goes from word to word: what is
heard of a gap is never longer than the gap, so nothing can be made up for later.
-/

namespace ImageRecipe.Yaml

instance : DecidablePred IsSeparator := fun b =>
  inferInstanceAs (Decidable (b = '\u2028' ∨ b = '\u2029'))

/-- Nothing in a text is folded, and nothing is refused as a marker: it holds no `U+0085`, no space
next to a separator, and no marker behind one. -/
def Unfolded : List Char → Prop
  | [] => True
  | c :: r => c ≠ '\u0085' ∧ (c = ' ' → ∀ d ∈ r.head?, ¬IsSeparator d) ∧
    (IsSeparator c → r.head? ≠ some ' ' ∧ startsMarked r = false) ∧ Unfolded r

theorem unfolded_cons (c : Char) (r : List Char) : Unfolded (c :: r) ↔
    c ≠ '\u0085' ∧ (c = ' ' → ∀ d ∈ r.head?, ¬IsSeparator d) ∧
      (IsSeparator c → r.head? ≠ some ' ' ∧ startsMarked r = false) ∧ Unfolded r :=
  Iff.rfl

instance decidableUnfolded : DecidablePred Unfolded
  | [] => .isTrue trivial
  | c :: r =>
    have := decidableUnfolded r
    inferInstanceAs (Decidable (c ≠ '\u0085' ∧ (c = ' ' → ∀ d ∈ r.head?, ¬IsSeparator d) ∧
      (IsSeparator c → r.head? ≠ some ' ' ∧ startsMarked r = false) ∧ Unfolded r))

theorem startsMarked_of_isGap {g : List Char} (hg : ∀ c ∈ g.head?, isGap c = true) :
    startsMarked g = false := by
  cases g with
  | nil => rfl
  | cons c g => rcases isGap_iff.mp (hg c rfl) with rfl | rfl | rfl | rfl <;> simp [startsMarked]

/-- A gap is kept if it is made of spaces, or of separators. -/
def Uniform (g : List Char) : Prop :=
  (∀ c ∈ g, c = ' ') ∨ ∀ c ∈ g, IsSeparator c

theorem unfolded_gap_iff {g : List Char} (hg : ∀ c ∈ g, isGap c = true) :
    Unfolded g ↔ Uniform g := by
  induction g with
  | nil => simp [Unfolded, Uniform]
  | cons c g ih =>
    obtain ⟨hc, hrestGap⟩ := List.forall_mem_cons.mp hg
    have hblank : ¬IsSeparator ' ' := by decide
    have hstart : startsMarked g = false :=
      startsMarked_of_isGap fun d hd => hrestGap d (List.mem_of_mem_head? hd)
    constructor
    · rintro ⟨hnext, hspace, hsep, hrest⟩
      rcases isGap_iff.mp hc with rfl | rfl | hc
      · refine .inl (List.forall_mem_cons.mpr ⟨rfl, ?_⟩)
        rcases (ih hrestGap).mp hrest with h | h
        · exact h
        · cases g with
          | nil => simp
          | cons d g => exact absurd (h d List.mem_cons_self) (hspace rfl d rfl)
      · exact absurd rfl hnext
      · refine .inr (List.forall_mem_cons.mpr ⟨hc, ?_⟩)
        rcases (ih hrestGap).mp hrest with h | h
        · cases g with
          | nil => simp
          | cons d g => exact absurd (congrArg some (h d List.mem_cons_self)) (hsep hc).1
        · exact h
    · rintro (h | h)
      · obtain ⟨rfl, hspaces⟩ := List.forall_mem_cons.mp h
        have hsame : ∀ d ∈ g.head?, ¬IsSeparator d := by
          intro d hd
          rw [hspaces d (List.mem_of_mem_head? hd)]
          exact hblank
        exact ⟨by decide, fun _ => hsame, fun hc => absurd hc hblank,
          (ih hrestGap).mpr (.inl hspaces)⟩
      · obtain ⟨hc, h⟩ := List.forall_mem_cons.mp h
        have hnext : c ≠ '\u0085' := by
          rintro rfl
          exact absurd hc (by decide)
        have hspace : c ≠ ' ' := by
          rintro rfl
          exact hblank hc
        have hsame : g.head? ≠ some ' ' := by
          intro hd
          exact hblank (h ' ' (List.mem_of_mem_head? hd))
        exact ⟨hnext, fun heq => absurd heq hspace, fun _ => ⟨hsame, hstart⟩,
          (ih hrestGap).mpr (.inr h)⟩

/-- A text is kept if its gaps are, and if no marker stands behind one of them. -/
theorem unfolded_append_iff {g s : List Char} (hg : ∀ c ∈ g, isGap c = true)
    (hs : ∀ c ∈ s.head?, isGap c = false) : Unfolded (g ++ s) ↔
      Unfolded g ∧ (endsInBreak g = true → startsMarked s = false) ∧ Unfolded s := by
  induction g with
  | nil => simp [Unfolded, endsInBreak]
  | cons c g ih =>
    obtain ⟨hc, hg⟩ := List.forall_mem_cons.mp hg
    cases g with
    | nil =>
      have hword : ∀ d ∈ s.head?, ¬IsSeparator d := by
        intro d hd hsep
        exact ne_of_class (isGap_iff.mpr (.inr (.inr hsep))) (hs d hd) rfl
      have hspace : s.head? ≠ some ' ' := by
        intro hd
        exact absurd (hs ' ' hd) (by decide)
      have hbreak : c ≠ '\u0085' → (isBreak c = true ↔ IsSeparator c) := by
        intro hnext
        rcases isGap_iff.mp hc with rfl | rfl | rfl | rfl
        · decide
        · exact absurd rfl hnext
        · decide
        · decide
      simp only [List.singleton_append, Unfolded, endsInBreak, List.getLast?_singleton,
        Option.any_some, List.head?_nil, and_true]
      constructor
      · rintro ⟨hnext, -, hsep, hrest⟩
        exact ⟨⟨hnext, by simp, by simp [startsMarked]⟩,
          fun h => (hsep ((hbreak hnext).mp h)).2, hrest⟩
      · rintro ⟨⟨hnext, -⟩, hmark, hrest⟩
        exact ⟨hnext, fun _ => hword, fun h => ⟨hspace, hmark ((hbreak hnext).mpr h)⟩, hrest⟩
    | cons d g =>
      have hstart : ∀ r, startsMarked (d :: r) = false := by
        intro r
        refine startsMarked_of_isGap ?_
        rintro x ⟨⟩
        exact hg d List.mem_cons_self
      have hends : endsInBreak (c :: d :: g) = endsInBreak (d :: g) := by
        simp [endsInBreak]
      have hrest := ih hg
      simp only [List.cons_append] at hrest ⊢
      rw [hends]
      rw [unfolded_cons c (d :: (g ++ s)), hrest, unfolded_cons c (d :: g)]
      simp only [List.head?_cons, hstart, and_assoc]

theorem unfolded_cons_iff {c : Char} (hc : isGap c = false) (r : List Char) :
    Unfolded (c :: r) ↔ Unfolded r := by
  have hnext : c ≠ '\u0085' := (ne_of_class (p := isGap) (by decide) hc).symm
  have hspace : c ≠ ' ' := (ne_of_class (p := isGap) (by decide) hc).symm
  have hsep : ¬IsSeparator c := by
    intro h
    exact ne_of_class (isGap_iff.mpr (.inr (.inr h))) hc rfl
  simp [Unfolded, hnext, hspace, hsep]

theorem length_folded_le (bs : List Char) : (folded bs).length ≤ bs.length := by
  unfold folded
  split <;> simp

theorem mem_folded {bs : List Char} {c : Char} (h : c ∈ folded bs) : c = ' ' ∨ c ∈ bs := by
  unfold folded at h
  split at h
  · exact .inl (List.mem_singleton.mp h)
  · exact .inr (List.mem_cons_of_mem _ h)
  · exact .inr h

theorem breakChar_ne (b : Char) : breakChar b ≠ '\u0085' := by
  unfold breakChar
  split
  · next h =>
    rintro rfl
    exact absurd h (by decide)
  · decide

theorem length_heardGap_le (g : List Char) : (heardGap g).length ≤ g.length := by
  rw [heardGap, separation]
  split
  · exact (List.takeWhile_sublist _).length_le
  · refine Nat.le_trans (length_folded_le _) ?_
    rw [List.length_map]
    exact List.length_filter_le _ _

theorem heardGap_eq_self_iff {g : List Char} (hg : ∀ c ∈ g, isGap c = true) :
    heardGap g = g ↔ Uniform g := by
  constructor
  · intro h
    by_cases hbreaks : g.filter isBreak = []
    · left
      intro c hc
      have hnot := List.filter_eq_nil_iff.mp hbreaks c hc
      rcases isGap_iff.mp (hg c hc) with rfl | rfl | rfl | rfl
      · rfl
      all_goals exact absurd (by decide) hnot
    · have hfolded : folded ((g.filter isBreak).map breakChar) = g := by
        rw [heardGap, separation, if_neg (by simpa using hbreaks)] at h
        exact h
      have hall : ∀ c ∈ g, isBreak c = true := by
        have hlength := length_folded_le ((g.filter isBreak).map breakChar)
        rw [hfolded, List.length_map] at hlength
        exact List.length_filter_eq_length_iff.mp
          (Nat.le_antisymm (List.length_filter_le _ _) hlength)
      right
      intro c hc
      have hnext : c ≠ '\u0085' := by
        rintro rfl
        rw [← hfolded] at hc
        rcases mem_folded hc with h | h
        · exact absurd h (by decide)
        · obtain ⟨b, -, hchar⟩ := List.mem_map.mp h
          exact breakChar_ne b hchar
      rcases isGap_iff.mp (hg c hc) with rfl | rfl | hsep
      · exact absurd (hall _ hc) (by decide)
      · exact absurd rfl hnext
      · exact hsep
  · rintro (h | h)
    · have hspaces : g.takeWhile isSpace = g := by
        rw [List.takeWhile_eq_self_iff]
        intro c hc
        rw [h c hc]
        rfl
      have hbreaks : g.filter isBreak = [] := by
        rw [List.filter_eq_nil_iff]
        intro c hc
        rw [h c hc]
        decide
      rw [heardGap, hspaces, hbreaks]
      rfl
    · have hbreaks : (g.filter isBreak).map breakChar = g := by
        rw [List.filter_eq_self.mpr fun c hc => (h c hc).spec.1,
          List.map_congr_left fun c hc => (h c hc).spec.2.2.1, List.map_id']
      rw [heardGap, hbreaks]
      cases g with
      | nil => rfl
      | cons c g =>
        obtain ⟨-, -, -, hlf, hspace, -⟩ := (h c List.mem_cons_self).spec
        rw [List.takeWhile_cons_of_neg (by simp [hspace]), separation_cons hlf]

theorem length_heardFrom_le {g t x : List Char} (h : heardFrom g t = some x) :
    x.length ≤ g.length + t.length := by
  induction t generalizing g x with
  | nil =>
    obtain rfl := Option.some.inj h
    exact length_heardGap_le g
  | cons c t ih =>
    cases hc : isGap c with
    | true =>
      rw [heardFrom_gap hc] at h
      have hlen := ih h
      simp only [List.length_append, List.length_cons, List.length_nil] at hlen ⊢
      omega
    | false =>
      rw [heardFrom_word hc] at h
      split at h
      · cases h
      · obtain ⟨y, hy, rfl⟩ := Option.map_eq_some_iff.mp h
        have hgap := length_heardGap_le g
        have hrest := ih hy
        simp only [List.length_append, List.length_cons, List.length_nil] at hrest ⊢
        omega

/-- **What is heard of a text is the text itself** if and only if nothing in it is folded or
refused. -/
theorem heardFrom_eq_self_iff {g t : List Char} (hg : ∀ c ∈ g, isGap c = true) :
    heardFrom g t = some (g ++ t) ↔ Unfolded (g ++ t) := by
  induction t generalizing g with
  | nil =>
    rw [List.append_nil, unfolded_gap_iff hg, ← heardGap_eq_self_iff hg]
    exact Option.some_inj
  | cons c t ih =>
    cases hc : isGap c with
    | true =>
      have hrest := ih (g := g ++ [c]) (by simpa [or_imp, forall_and] using ⟨hg, hc⟩)
      rw [heardFrom_gap hc]
      simpa using hrest
    | false =>
      have hrest := ih (g := []) (by simp)
      have hword : ∀ d ∈ (c :: t).head?, isGap d = false := by
        rintro d ⟨⟩
        exact hc
      rw [List.nil_append] at hrest
      rw [heardFrom_word hc, unfolded_append_iff hg hword, unfolded_cons_iff hc,
        unfolded_gap_iff hg, ← heardGap_eq_self_iff hg, ← hrest]
      cases hm : endsInBreak g && startsMarked (c :: t) with
      | true =>
        rw [Bool.and_eq_true] at hm
        simp [hm]
      | false =>
        have hfree : endsInBreak g = true → startsMarked (c :: t) = false := by
          intro h
          simpa [h] using hm
        rw [if_neg (by simp)]
        constructor
        · intro h
          obtain ⟨x, hx, heq⟩ := Option.map_eq_some_iff.mp h
          -- neither part of what is heard is longer than what it is heard of
          have hlength := congrArg List.length heq
          have hgap := length_heardGap_le g
          have htext := length_heardFrom_le hx
          simp only [List.length_append, List.length_cons, List.length_nil] at hlength htext
          obtain ⟨hsame, hcons⟩ := List.append_inj heq (by omega)
          exact ⟨hsame, hfree, hx.trans (congrArg some (List.cons.inj hcons).2)⟩
        · rintro ⟨hsame, -, ht⟩
          rw [ht, hsame]
          rfl

theorem unfolded_of_forall {s : List Char} (h : ∀ c ∈ s, c ≠ '\u0085' ∧ ¬IsSeparator c) :
    Unfolded s := by
  induction s with
  | nil => trivial
  | cons c s ih =>
    obtain ⟨⟨hnext, hsep⟩, hs⟩ := List.forall_mem_cons.mp h
    exact ⟨hnext, fun _ d hd => (hs d (List.mem_of_mem_head? hd)).2, fun hc => absurd hc hsep,
      ih hs⟩

/-! ### Texts as a whole -/

/-- The characters of a text that YAML accepts in JSON, where the controls below `U+0020` are
escaped. -/
def isReadable (c : Char) : Bool :=
  isAllowed c || c < ' '

/-- What YAML makes of a text in JSON; `none` if it refuses the text or a character of it. -/
def heard (s : String) : Option String :=
  if s.toList.all isReadable then heardText s else none

def Kept (s : String) : Prop :=
  s.toList.all isReadable = true ∧ Unfolded s.toList

instance : DecidablePred Kept := fun s =>
  inferInstanceAs (Decidable (s.toList.all isReadable = true ∧ Unfolded s.toList))

/-- **The texts that YAML reads as they are.** -/
theorem heard_eq_self_iff {s : String} : heard s = some s ↔ Kept s := by
  have hunfolded : heardText s = some s ↔ Unfolded s.toList := by
    have hself := heardFrom_eq_self_iff (g := []) (t := s.toList) (by simp)
    rw [List.nil_append] at hself
    rw [← hself, heardText, Option.map_eq_some_iff]
    constructor
    · rintro ⟨x, hx, rfl⟩
      rw [hx, String.toList_ofList]
    · exact fun h => ⟨s.toList, h, String.ofList_toList⟩
  rw [heard, Kept, ← hunfolded]
  cases s.toList.all isReadable <;> simp

example : heard "a \u2028b" = some "a\u2028b" := by decide

example : heard "a\x7fb" = none := by decide

theorem kept_of_forall {s : String}
    (h : ∀ c ∈ s.toList, isReadable c = true ∧ c ≠ '\u0085' ∧ ¬IsSeparator c) : Kept s :=
  ⟨List.all_eq_true.mpr fun c hc => (h c hc).1, unfolded_of_forall fun c hc => (h c hc).2⟩

end ImageRecipe.Yaml
