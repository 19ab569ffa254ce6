import ImageRecipe.Yaml.Document
import Mathlib.Tactic.SplitIfs

/-!
# Where documents end

Every reader takes its tokens off the front of a list, so what it leaves is a
suffix of what it was given; `leavesSuffix` says so of all of them, by induction
on the fuel that they share.  So a document counts as complete only if the tokens
of its text go on to the end of the text, and a text on which the scanner comes
to a halt is never read with success.
-/

namespace ImageRecipe.Yaml

variable {handles : Handles}

/-- What the readers leave of their tokens is a suffix of them, given this fuel. -/
structure LeavesSuffix (handles : Handles) (fuel : Nat) : Prop where
  node : ∀ block inMapping f, (node handles block inMapping fuel f).2.tokens <:+ f.tokens
  blockItems : ∀ f, (blockItems handles fuel f).2.tokens <:+ f.tokens
  openItems : ∀ f, (openItems handles fuel f).2.tokens <:+ f.tokens
  blockEntries : ∀ f, (blockEntries handles fuel f).2.tokens <:+ f.tokens
  flowItems : ∀ first f, (flowItems handles first fuel f).2.tokens <:+ f.tokens
  flowPair : ∀ f, (flowPair handles fuel f).2.tokens <:+ f.tokens
  flowEntries : ∀ first f, (flowEntries handles first fuel f).2.tokens <:+ f.tokens

theorem takeProperties_suffix {ts ts' : List Token} {a : Option (List Char)} {t : Option String}
    (h : takeProperties handles ts = some (a, t, ts')) : ts' <:+ ts := by
  unfold takeProperties at h
  split at h
  · obtain ⟨_, -, h⟩ := Option.map_eq_some_iff.mp h
    cases h
    exact (List.suffix_cons _ _).trans (List.suffix_cons _ _)
  · cases h
    exact List.suffix_cons _ _
  · obtain ⟨_, -, h⟩ := Option.map_eq_some_iff.mp h
    cases h
    exact (List.suffix_cons _ _).trans (List.suffix_cons _ _)
  · obtain ⟨_, -, h⟩ := Option.map_eq_some_iff.mp h
    cases h
    exact List.suffix_cons _ _
  · cases h
    exact List.suffix_refl _

/-- Where a later item of a flow collection starts. -/
theorem behindComma_suffix (first : Bool) (t : Token) (r : List Token) :
    (if first then t :: r else r) <:+ t :: r := by
  split
  · exact List.suffix_refl _
  · exact List.suffix_cons t r

namespace LeavesSuffix

variable {n : Nat} (ih : LeavesSuffix handles n)

include ih

/-! ### One more unit of fuel -/

/-- A node that may be left out. -/
theorem optional_suffix (p : Prop) [Decidable p] (block inMapping : Bool) (f : Feed)
    (r : List Token) : (if p then leftOut f r
      else Yaml.node handles block inMapping n { f with tokens := r }).2.tokens <:+ r := by
  split
  · exact List.suffix_refl r
  · exact ih.node _ _ _

/-- The value of a key, with its mark. -/
theorem value_suffix (ends : Token → Bool) (block inMapping : Bool) (f : Feed) :
    (match f.tokens with
      | [] => unfit f
      | .value :: r =>
        match r with
        | t :: _ =>
          if ends t then leftOut f r
          else Yaml.node handles block inMapping n { f with tokens := r }
        | [] => unfit f
      | r => leftOut f r).2.tokens <:+ f.tokens := by
  split
  · exact List.nil_suffix
  · next r hf =>
    rw [hf]
    refine List.IsSuffix.trans ?_ (List.suffix_cons _ r)
    split
    · exact ih.optional_suffix _ _ _ _ _
    · exact List.nil_suffix
  · exact List.suffix_refl _

theorem node_succ (block inMapping : Bool) (f : Feed) :
    (Yaml.node handles block inMapping (n + 1) f).2.tokens <:+ f.tokens := by
  rw [Yaml.node]
  split
  · next a r hf =>
    rw [hf]
    split
    · exact List.suffix_cons _ _
    · exact List.nil_suffix
  · split
    · exact List.nil_suffix
    · next anchor tag ts hts =>
      refine List.IsSuffix.trans ?_ (takeProperties_suffix hts)
      split
      · exact List.nil_suffix
      · exact List.suffix_cons _ _
      · exact (ih.flowItems _ _).trans (List.suffix_cons _ _)
      · exact (ih.flowEntries _ _).trans (List.suffix_cons _ _)
      · split_ifs
        · exact ih.openItems _
        · exact (ih.blockItems _).trans (List.suffix_cons _ _)
        · exact (ih.blockEntries _).trans (List.suffix_cons _ _)
        · exact List.suffix_refl _
        · exact List.nil_suffix

theorem blockItems_succ (f : Feed) :
    (Yaml.blockItems handles (n + 1) f).2.tokens <:+ f.tokens := by
  rw [Yaml.blockItems]
  split
  · next r hf =>
    rw [hf]
    refine List.IsSuffix.trans ((ih.blockItems _).trans ?_) (List.suffix_cons _ r)
    split
    · exact List.suffix_refl _
    · exact List.suffix_refl _
    · exact ih.node _ _ _
  · next r hf => exact hf ▸ List.suffix_cons _ r
  · exact List.nil_suffix

theorem openItems_succ (f : Feed) :
    (Yaml.openItems handles (n + 1) f).2.tokens <:+ f.tokens := by
  rw [Yaml.openItems]
  split
  · exact List.nil_suffix
  · next r hf =>
    rw [hf]
    refine List.IsSuffix.trans ((ih.openItems _).trans ?_) (List.suffix_cons _ r)
    split
    · exact ih.optional_suffix _ _ _ _ _
    · exact List.nil_suffix
  · exact List.suffix_refl _

theorem blockEntries_succ (f : Feed) :
    (Yaml.blockEntries handles (n + 1) f).2.tokens <:+ f.tokens := by
  rw [Yaml.blockEntries]
  split
  · next r hf =>
    rw [hf]
    refine List.IsSuffix.trans ((ih.blockEntries _).trans ?_) (List.suffix_cons _ r)
    refine (ih.value_suffix endsBlockNode true true _).trans ?_
    split
    · exact ih.optional_suffix _ _ _ _ _
    · exact List.nil_suffix
  · next r hf => exact hf ▸ List.suffix_cons _ r
  · exact List.nil_suffix

theorem flowItems_succ (first : Bool) (f : Feed) :
    (Yaml.flowItems handles first (n + 1) f).2.tokens <:+ f.tokens := by
  rw [Yaml.flowItems]
  split
  · next r hf => exact hf ▸ List.suffix_cons _ r
  · next t r _ hf =>
    rw [hf]
    split
    · exact List.nil_suffix
    · refine List.IsSuffix.trans ?_ (behindComma_suffix first t r)
      split
      · exact List.nil_suffix
      · next r heq => exact heq ▸ List.suffix_cons _ r
      · next r heq =>
        rw [heq]
        exact ((ih.flowItems _ _).trans (ih.flowPair _)).trans (List.suffix_cons _ r)
      · exact (ih.flowItems _ _).trans (ih.node _ _ _)
  · exact List.nil_suffix

theorem flowPair_succ (f : Feed) :
    (Yaml.flowPair handles (n + 1) f).2.tokens <:+ f.tokens := by
  rw [Yaml.flowPair]
  split
  · next key g hkey =>
    have hg : g.tokens <:+ f.tokens := by
      rw [← congrArg (·.2.tokens) hkey]
      split
      · exact List.nil_suffix
      · next t r hf =>
        split
        · exact hf ▸ List.suffix_cons t r
        · exact ih.node _ _ _
    refine List.IsSuffix.trans ?_ hg
    have hvalue := ih.value_suffix endsPairNode false false g
    split
    · next value k hk =>
      have hk' : k.tokens <:+ g.tokens := by
        rw [← congrArg (·.2.tokens) hk]
        exact hvalue
      split <;> exact hk'

theorem flowEntries_succ (first : Bool) (f : Feed) :
    (Yaml.flowEntries handles first (n + 1) f).2.tokens <:+ f.tokens := by
  rw [Yaml.flowEntries]
  split
  · next r hf => exact hf ▸ List.suffix_cons _ r
  · next t r _ hf =>
    rw [hf]
    split
    · exact List.nil_suffix
    · refine List.IsSuffix.trans ?_ (behindComma_suffix first t r)
      split
      · exact List.nil_suffix
      · next r heq => exact heq ▸ List.suffix_cons _ r
      · next r heq =>
        rw [heq]
        refine List.IsSuffix.trans ((ih.flowEntries _ _).trans ?_) (List.suffix_cons _ r)
        refine (ih.value_suffix endsFlowNode false false _).trans ?_
        split
        · exact ih.optional_suffix _ _ _ _ _
        · exact List.nil_suffix
      · refine (ih.flowEntries _ _).trans ?_
        refine List.IsSuffix.trans ?_ (ih.node false false
          { f with tokens := if first = true then t :: r else r })
        split
        · exact List.nil_suffix
        · exact List.suffix_refl _
  · exact List.nil_suffix

end LeavesSuffix

/-- **No reader leaves other tokens than the last of those that it was given.** -/
theorem leavesSuffix (handles : Handles) (fuel : Nat) : LeavesSuffix handles fuel := by
  induction fuel with
  | zero =>
    exact ⟨fun _ _ _ => List.nil_suffix, fun _ => List.nil_suffix, fun _ => List.nil_suffix,
      fun _ => List.nil_suffix, fun _ _ => List.nil_suffix, fun _ => List.nil_suffix,
      fun _ _ => List.nil_suffix⟩
  | succ n ih =>
    exact ⟨ih.node_succ, ih.blockItems_succ, ih.openItems_succ, ih.blockEntries_succ,
      ih.flowItems_succ, ih.flowPair_succ, ih.flowEntries_succ⟩

/-! ### Documents -/

theorem directives_suffix {versioned : Bool} {handles handles' : Handles} {ts ts' : List Token}
    (h : directives versioned handles ts = some (handles', ts')) : ts' <:+ ts := by
  fun_induction directives versioned handles ts with
  | case1 => cases h
  | case2 versioned handles major minor r _ ih => exact (ih h).trans (List.suffix_cons _ _)
  | case3 => cases h
  | case4 versioned handles name meaning r _ ih => exact (ih h).trans (List.suffix_cons _ _)
  | case5 =>
    cases h
    exact List.suffix_refl _

theorem mem_of_endsText {ts : List Token} (h : endsText ts = true) : .streamEnd ∈ ts := by
  induction ts with
  | nil => cases h
  | cons t ts ih =>
    cases t with
    | streamEnd => exact List.mem_cons_self
    | documentEnd => exact List.mem_cons_of_mem _ (ih h)
    | _ => cases h

namespace Document

theorem mem_of_complete_ofFeed {handles : Handles} {f : Feed}
    (h : (ofFeed handles f).complete = true) : .streamEnd ∈ f.tokens :=
  ((leavesSuffix handles (4 * f.tokens.length + 4)).node true false f).mem (mem_of_endsText h)

/-- **A document is complete only if its tokens come to the end of the text.** -/
theorem mem_of_complete {ts : List Token} (h : (ofTokens ts).complete = true) :
    .streamEnd ∈ ts := by
  unfold ofTokens at h
  split at h
  · cases h
  · exact List.mem_cons_self
  · split at h
    case h_4 => exact mem_of_complete_ofFeed h
    all_goals
      split at h
      · next handles r hd =>
        refine (directives_suffix hd).mem (List.mem_cons_of_mem _ ?_)
        split at h
        case h_1 => cases h
        case h_7 => exact mem_of_complete_ofFeed h
        all_goals exact mem_of_endsText h
      · cases h

end Document

end ImageRecipe.Yaml
