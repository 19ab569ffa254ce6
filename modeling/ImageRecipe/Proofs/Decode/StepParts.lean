import ImageRecipe.Proofs.Decode.UnorderedRecords

/-!
# The parts of a step

A step is read in two passes.  The first takes the entries one after the other
and tells the one that names the kind from the others, which it keeps as
content; `Parts` is what it comes to.  The second looks for the fields of the
kind in that content.  Both together gather the pairs that a step consists of,
`Step.pairs`, from the entries, and so the order of the entries does not
matter, nor where the kind is named.
-/

namespace ImageRecipe

open Decode

/-- What a step consists of: its kind and its texts, under their names. -/
def Step.pairs (s : Step) : List (String × String) :=
  (kindField, s.kind.name) :: s.kind.fieldNames.zip s.fields

namespace StepKind

theorem kindField_notMem_fieldNames (kd : StepKind) : Step.kindField ∉ kd.fieldNames := by
  cases kd <;> decide

theorem ofName?_eq_some_iff {s : String} {kd : StepKind} : ofName? s = some kd ↔ s = kd.name := by
  constructor
  · intro h
    rw [ofName?] at h
    have hname := List.find?_some h
    exact (eq_of_beq hname).symm
  · rintro rfl
    cases kd <;> rfl

theorem name_injective {k kd : StepKind} (h : k.name = kd.name) : k = kd :=
  Option.some.inj ((ofName?_eq_some_iff.mpr h).symm.trans (ofName?_eq_some_iff.mpr rfl)).symm

end StepKind

namespace Decode

theorem stepKind_eq_ok_iff {s : String} {kd : StepKind} : stepKind s = .ok kd ↔ s = kd.name := by
  rw [← StepKind.ofName?_eq_some_iff, stepKind, named]
  cases StepKind.ofName? s <;> simp

/-! ### The fields in the content -/

namespace Content

variable {kd : StepKind} {cs : List (Content × Content)}

/-- What an entry with content gives a step of a kind: the text of a field that its key names, or
nothing if there is no such field. -/
inductive PairOf (kd : StepKind) : Content × Content → Option (String × String) → Prop
  | unknown {c d : Content} (h : fieldName kd c = .ok none) : PairOf kd (c, d) none
  | field {c : Content} {name t : String} (h : fieldName kd c = .ok (some name)) :
      PairOf kd (c, .text t) (some (name, t))

theorem mem_of_fieldName {c : Content} {name : String} (h : fieldName kd c = .ok (some name)) :
    name ∈ kd.fieldNames := by
  cases c with
  | text s => exact List.mem_of_find?_eq_some (Except.ok.inj h)
  | int n =>
    rw [fieldName] at h
    by_cases hn : 0 ≤ n
    · rw [if_pos hn] at h
      exact List.mem_of_getElem? (Except.ok.inj h)
    · rw [if_neg hn] at h
      cases h
  | _ => cases h

theorem PairOf.mem {c : Content × Content} {x : String × String} (h : PairOf kd c (some x)) :
    x.1 ∈ kd.fieldNames := by
  cases h with
  | field h => exact mem_of_fieldName h

theorem string_eq_ok_iff {c : Content} {t : String} : c.string = .ok t ↔ c = .text t := by
  cases c <;> simp [string]

theorem lookup_concat_eq_none_iff {fs : List (String × String)} {name t s : String} :
    (fs ++ [(name, t)]).lookup s = none ↔ fs.lookup s = none ∧ s ≠ name := by
  rw [lookup_eq_none_iff, lookup_eq_none_iff]
  simp

/-- **The texts of the fields are gathered from the content.** -/
theorem fieldTexts_eq_ok_iff {seen texts : List (String × String)} :
    fieldTexts kd seen cs = .ok texts ↔ ∃ xs, Gathers (PairOf kd) Prod.fst cs xs ∧
      (∀ x ∈ xs, seen.lookup x.1 = none) ∧ texts = seen ++ xs := by
  induction cs generalizing seen with
  | nil =>
    constructor
    · intro h
      exact ⟨[], .nil, nofun, by rw [← Except.ok.inj h, List.append_nil]⟩
    · rintro ⟨xs, h, -, rfl⟩
      cases h
      rw [List.append_nil]
      rfl
  | cons e cs ih =>
    obtain ⟨c, d⟩ := e
    rw [fieldTexts, bind_eq_ok_iff]
    constructor
    · rintro ⟨o, ho, h⟩
      cases o with
      | none =>
        obtain ⟨xs, hxs, hseen, rfl⟩ := ih.mp h
        exact ⟨xs, .skip (.unknown ho) hxs, hseen, rfl⟩
      | some name =>
        cases hname : seen.lookup name with
        | some t =>
          simp only [hname, Option.isSome_some, if_true] at h
          cases h
        | none =>
          simp only [hname, Option.isSome_none, Bool.false_eq_true, if_false, bind_eq_ok_iff,
            string_eq_ok_iff] at h
          obtain ⟨t, rfl, h⟩ := h
          obtain ⟨xs, hxs, hseen, rfl⟩ := ih.mp h
          simp only [lookup_concat_eq_none_iff] at hseen
          exact ⟨(name, t) :: xs, .take (.field ho) (fun y hy => (hseen y hy).2) hxs,
            List.forall_mem_cons.mpr ⟨hname, fun y hy => (hseen y hy).1⟩, by simp⟩
    · rintro ⟨xs, hxs, hseen, rfl⟩
      cases hxs with
      | skip h hxs =>
        cases h with
        | unknown h => exact ⟨none, h, ih.mpr ⟨xs, hxs, hseen, rfl⟩⟩
      | @take _ _ _ xs h hnew hxs =>
        cases h with
        | @field _ name t h =>
          obtain ⟨hname, hseen⟩ := List.forall_mem_cons.mp hseen
          refine ⟨some name, h, ?_⟩
          have hlater : fieldTexts kd (seen ++ [(name, t)]) cs = .ok (seen ++ (name, t) :: xs) :=
            ih.mpr ⟨xs, hxs, fun x hx => lookup_concat_eq_none_iff.mpr ⟨hseen x hx, hnew x hx⟩,
              by simp⟩
          simpa only [hname, Option.isSome_none, Bool.false_eq_true, if_false, string,
            bind, Except.bind] using hlater

/-- The texts that are required are found under their names. -/
theorem required_eq_ok_iff {texts : List (String × String)} {names ts : List String} :
    required texts names = .ok ts ↔
      names.length = ts.length ∧ ∀ p ∈ names.zip ts, texts.lookup p.1 = some p.2 := by
  refine ⟨fun h => ?_, fun ⟨hlen, h⟩ => required_eq hlen h⟩
  induction names generalizing ts with
  | nil =>
    obtain rfl := Except.ok.inj h
    exact ⟨rfl, nofun⟩
  | cons name names ih =>
    rw [required] at h
    cases hname : texts.lookup name with
    | none =>
      rw [hname] at h
      cases h
    | some t =>
      simp only [hname, bind_eq_ok_iff, pure, Except.pure, Except.ok.injEq] at h
      obtain ⟨ts, h, rfl⟩ := h
      obtain ⟨hlen, hts⟩ := ih h
      exact ⟨congrArg (· + 1) hlen, List.forall_mem_cons.mpr ⟨hname, hts⟩⟩

theorem ofFields?_eq_some_iff {ts : List String} {s : Step} :
    Step.ofFields? kd ts = some s ↔ kd = s.kind ∧ ts = s.fields := by
  constructor
  · intro h
    rw [Step.ofFields?.eq_def] at h
    split at h
    all_goals first | obtain rfl := Option.some.inj h; exact ⟨rfl, rfl⟩ | cases h
  · rintro ⟨rfl, rfl⟩
    exact s.ofFields?_fields

/-- Texts of different names are the ones required if they are all there are. -/
theorem required_eq_ok_iff_perm {xs : List (String × String)} {names ts : List String}
    (hnames : names.Nodup) (hlen : names.length = ts.length) (hxs : (xs.map Prod.fst).Nodup)
    (hmem : ∀ x ∈ xs, x.1 ∈ names) :
    required xs names = .ok ts ↔ xs.Perm (names.zip ts) := by
  have hzip : (names.zip ts).map Prod.fst = names := List.map_fst_zip (Nat.le_of_eq hlen)
  rw [required_eq_ok_iff]
  constructor
  · rintro ⟨-, h⟩
    have hzip' : (names.zip ts).Nodup := List.Nodup.of_map Prod.fst (hzip.symm ▸ hnames)
    refine (List.perm_ext_iff_of_nodup (List.Nodup.of_map Prod.fst hxs) hzip').mpr fun x => ?_
    constructor
    · intro hx
      have hname : x.1 ∈ (names.zip ts).map Prod.fst := hzip.symm ▸ hmem x hx
      obtain ⟨p, hp, hpx⟩ := List.mem_map.mp hname
      have htext := (h p hp).symm.trans (hpx ▸ Reading.lookup_of_mem hxs hx)
      obtain rfl : p = x := Prod.ext hpx (Option.some.inj htext)
      exact hp
    · exact fun hx => mem_of_lookup (h x hx)
  · intro h
    exact ⟨hlen, fun p hp => Reading.lookup_of_mem hxs (h.symm.subset hp)⟩

/-- **A step is read if its texts are what is gathered**, in whatever order. -/
theorem step_eq_ok_iff {s : Step} : step kd (.mapping cs) = .ok s ↔
    kd = s.kind ∧ ∃ xs, Gathers (PairOf kd) Prod.fst cs xs ∧
      xs.Perm (s.kind.fieldNames.zip s.fields) := by
  have hmem {xs : List (String × String)} (h : Gathers (PairOf kd) Prod.fst cs xs) :
      ∀ x ∈ xs, x.1 ∈ kd.fieldNames := by
    intro x hx
    obtain ⟨c, -, hc⟩ := h.exists_of_mem hx
    exact hc.mem
  have hstep : step kd (.mapping cs) = .ok s ↔ ∃ xs ts, Gathers (PairOf kd) Prod.fst cs xs ∧
      required xs kd.fieldNames = .ok ts ∧ Step.ofFields? kd ts = some s := by
    simp only [step, stepTexts, bind_eq_ok_iff, fieldTexts_eq_ok_iff, List.lookup_nil,
      implies_true, true_and, List.nil_append]
    constructor
    · rintro ⟨ts, ⟨xs, ⟨_, hxs, rfl⟩, hts⟩, hs⟩
      cases hof : Step.ofFields? kd ts with
      | none =>
        rw [hof] at hs
        cases hs
      | some s' =>
        rw [hof] at hs
        obtain rfl := Except.ok.inj hs
        exact ⟨xs, ts, hxs, hts, hof⟩
    · rintro ⟨xs, ts, hxs, hts, hs⟩
      exact ⟨ts, ⟨xs, ⟨xs, hxs, rfl⟩, hts⟩, by rw [hs]; rfl⟩
  rw [hstep]
  constructor
  · rintro ⟨xs, ts, hxs, hts, hs⟩
    obtain ⟨rfl, rfl⟩ := ofFields?_eq_some_iff.mp hs
    exact ⟨rfl, xs, hxs, (required_eq_ok_iff_perm (nodup_fieldNames _) s.length_fields.symm
      hxs.nodup (hmem hxs)).mp hts⟩
  · rintro ⟨rfl, xs, hxs, hp⟩
    exact ⟨xs, s.fields, hxs, (required_eq_ok_iff_perm (nodup_fieldNames _) s.length_fields.symm
      hxs.nodup (hmem hxs)).mpr hp, s.ofFields?_fields⟩

end Content

/-! ### The kind among the entries -/

section Parts

variable {ε : Type} {part : ε → StepKind ⊕ (Content × Content) → Prop} {es : List ε}
  {found : Option StepKind} {kd : StepKind} {cs : List (Content × Content)}

/-- What is found in the entries of a step, besides the kind that is `found` already: the kind, in
one entry at most, and content in the others.  What an entry holds is told by `part`. -/
inductive Parts (part : ε → StepKind ⊕ (Content × Content) → Prop) :
    (found : Option StepKind) → List ε → StepKind → List (Content × Content) → Prop
  | nil (kd : StepKind) : Parts part (some kd) [] kd []
  | kind {e : ε} {es : List ε} {k kd : StepKind} {cs : List (Content × Content)}
      (h : part e (.inl k)) (hes : Parts part (some k) es kd cs) : Parts part none (e :: es) kd cs
  | other {found : Option StepKind} {e : ε} {es : List ε} {kd : StepKind}
      {c : Content × Content} {cs : List (Content × Content)} (h : part e (.inr c))
      (hes : Parts part found es kd cs) : Parts part found (e :: es) kd (c :: cs)

theorem Parts.eq_of_found {k : StepKind} (h : Parts part (some k) es kd cs) : kd = k := by
  generalize hfound : some k = found at h
  induction h with
  | nil _ => exact (Option.some.inj hfound).symm
  | kind _ _ _ => cases hfound
  | other _ _ ih => exact ih hfound

theorem Parts.exists_of_mem (h : Parts part found es kd cs) {e : ε} (he : e ∈ es) :
    ∃ p, part e p := by
  induction h with
  | nil _ => cases he
  | kind h _ ih | other h _ ih =>
    rcases List.mem_cons.mp he with rfl | he
    · exact ⟨_, h⟩
    · exact ih he

/-- What an entry gives a step of a kind: the kind itself, or what its content gives. -/
inductive GivesPair (part : ε → StepKind ⊕ (Content × Content) → Prop) (kd : StepKind) (e : ε) :
    Option (String × String) → Prop
  | kind (h : part e (.inl kd)) : GivesPair part kd e (some (Step.kindField, kd.name))
  | other {c : Content × Content} {o : Option (String × String)} (h : part e (.inr c))
      (ho : Content.PairOf kd c o) : GivesPair part kd e o

/-- The kind as a pair, unless it is found already. -/
def kindPair (kd : StepKind) : (found : Option StepKind) → List (String × String)
  | none => [(Step.kindField, kd.name)]
  | some _ => []

theorem kindField_ne_of_pairOf {c : Content × Content} {x : String × String}
    (h : Content.PairOf kd c (some x)) : x.1 ≠ Step.kindField :=
  fun hx => kd.kindField_notMem_fieldNames (hx ▸ h.mem)

theorem Parts.gathers (h : Parts part found es kd cs) {xs : List (String × String)}
    (hxs : Gathers (Content.PairOf kd) Prod.fst cs xs) :
    ∃ ys, Gathers (GivesPair part kd) Prod.fst es ys ∧ ys.Perm (kindPair kd found ++ xs) := by
  induction h generalizing xs with
  | nil kd =>
    cases hxs
    exact ⟨[], .nil, .rfl⟩
  | @kind e es k kd cs h hes ih =>
    obtain ⟨ys, hys, hp⟩ := ih hxs
    obtain rfl := hes.eq_of_found
    refine ⟨_ :: ys, .take (.kind h) (fun y hy => ?_) hys, hp.cons _⟩
    obtain ⟨c, -, hc⟩ := hxs.exists_of_mem (hp.subset hy)
    exact kindField_ne_of_pairOf hc
  | @other found e es kd c cs h hes ih =>
    cases hxs with
    | skip hc hxs =>
      obtain ⟨ys, hys, hp⟩ := ih hxs
      exact ⟨ys, .skip (.other h hc) hys, hp⟩
    | @take _ x _ xs hc hnew hxs =>
      obtain ⟨ys, hys, hp⟩ := ih hxs
      refine ⟨x :: ys, .take (.other h hc) (fun y hy => ?_) hys, (hp.cons x).trans ?_⟩
      · rcases List.mem_append.mp (hp.subset hy) with hy | hy
        · cases found with
          | some k => cases hy
          | none =>
            rw [List.mem_singleton.mp hy]
            exact Ne.symm (kindField_ne_of_pairOf hc)
        · exact hnew y hy
      · exact List.perm_middle.symm

/-- What is gathered from the entries comes from the parts that are found in them. -/
theorem exists_parts {ys : List (String × String)}
    (h : Gathers (GivesPair part kd) Prod.fst es ys) :
    ∃ found cs xs, Parts part found es kd cs ∧ Gathers (Content.PairOf kd) Prod.fst cs xs ∧
      ys.Perm (kindPair kd found ++ xs) := by
  induction h with
  | nil => exact ⟨some kd, [], [], .nil kd, .nil, .rfl⟩
  | skip h _ ih =>
    obtain ⟨found, cs, xs, hparts, hxs, hp⟩ := ih
    cases h with
    | other h hc => exact ⟨found, _, xs, .other h hparts, .skip hc hxs, hp⟩
  | @take e y es ys h hnew hys ih =>
    obtain ⟨found, cs, xs, hparts, hxs, hp⟩ := ih
    cases h with
    | kind h =>
      cases found with
      | none =>
        have hmem : (Step.kindField, kd.name) ∈ ys := hp.symm.subset List.mem_cons_self
        exact absurd rfl (hnew _ hmem)
      | some k =>
        obtain rfl := hparts.eq_of_found
        exact ⟨none, cs, xs, .kind h hparts, hxs, hp.cons _⟩
    | other h hc =>
      refine ⟨found, _, y :: xs, .other h hparts, .take hc (fun x hx => ?_) hxs, ?_⟩
      · exact hnew x (hp.symm.subset (List.mem_append_right _ hx))
      · exact (hp.cons y).trans List.perm_middle.symm

/-- **A step is read if the pairs that it consists of are what is gathered**, in whatever order. -/
theorem exists_step_iff {s : Step} :
    (∃ kd cs, Parts part none es kd cs ∧ Content.step kd (.mapping cs) = .ok s) ↔
      ∃ ys, Gathers (GivesPair part s.kind) Prod.fst es ys ∧ ys.Perm s.pairs := by
  constructor
  · rintro ⟨kd, cs, hparts, hstep⟩
    obtain ⟨rfl, xs, hxs, hp⟩ := Content.step_eq_ok_iff.mp hstep
    obtain ⟨ys, hys, hp'⟩ := hparts.gathers hxs
    exact ⟨ys, hys, hp'.trans (hp.cons _)⟩
  · rintro ⟨ys, hys, hp⟩
    obtain ⟨found, cs, xs, hparts, hxs, hp'⟩ := exists_parts hys
    have hpairs := hp'.symm.trans hp
    cases found with
    | none =>
      exact ⟨s.kind, cs, hparts, Content.step_eq_ok_iff.mpr ⟨rfl, xs, hxs, hpairs.cons_inv⟩⟩
    | some k =>
      have hmem : (Step.kindField, s.kind.name) ∈ xs := hpairs.symm.subset List.mem_cons_self
      obtain ⟨c, -, hc⟩ := hxs.exists_of_mem hmem
      exact absurd rfl (kindField_ne_of_pairOf hc)

/-- The names that count for a step with these entries: that of the kind, and those of the fields
of the kind that an entry names. -/
def KnownName (names : ε → StepKind → Prop) (es : List ε) (s : String) : Prop :=
  s = Step.kindField ∨ ∃ e ∈ es, ∃ kd, names e kd ∧ s ∈ kd.fieldNames

/-- What the parts of a step are, in either format, by the keys and values of its entries. -/
structure PartsByKey (part : ε → StepKind ⊕ (Content × Content) → Prop)
    (Key : ε → String → Prop) (IsText : ε → Prop) (names : ε → StepKind → Prop) : Prop where
  kind_of_key : ∀ {e p}, Key e Step.kindField → part e p → ∃ kd, p = .inl kd
  other_of_key : ∀ {e s p}, Key e s → s ≠ Step.kindField → part e p → ∃ d, p = .inr (.text s, d)
  kind_of_names : ∀ {e kd p}, names e kd → part e p → p = .inl kd
  names_of_kind : ∀ {e kd}, part e (.inl kd) → names e kd
  exists_other : ∀ {e s}, Key e s → s ≠ Step.kindField → IsText e →
    ∃ d, part e (.inr (.text s, d))

/-- **A step is read from its entries in any order.** -/
theorem unordered_step {decode : String → Except Failure Step} {Holds : String → List ε → Prop}
    {Key : ε → String → Prop} {IsText : ε → Prop} {names : ε → StepKind → Prop}
    (part : ε → StepKind ⊕ (Content × Content) → Prop) (valid : Prop) (Fits : List ε → Prop)
    (hdecode : ∀ {t es s}, Holds t es → (decode t = .ok s ↔ valid ∧ Fits es ∧
      ∃ kd cs, Parts part none es kd cs ∧ Content.step kd (.mapping cs) = .ok s))
    (hfits : ∀ {es es'}, es.Perm es' → Fits es → Fits es')
    (hroom : ∀ {u s us}, Key u s → s ≠ Step.kindField → IsText u → Fits us → Fits (u :: us))
    (hpart : PartsByKey part Key IsText names) :
    Unordered decode Holds Key IsText (KnownName names) := by
  refine Unordered.of_gathers Prod.fst (fun s => GivesPair part s.kind)
    (fun s xs => valid ∧ xs.Perm s.pairs) ?_ ?_ hfits ?_ ?_
  · intro t es s h
    rw [hdecode h, exists_step_iff]
    exact ⟨fun ⟨hvalid, hes, ys, hys, hp⟩ => ⟨hes, ys, hys, hvalid, hp⟩,
      fun ⟨hes, ys, hys, hvalid, hp⟩ => ⟨hvalid, hes, ys, hys, hp⟩⟩
  · exact fun hp _ ⟨hvalid, hxs⟩ => ⟨hvalid, hp.symm.trans hxs⟩
  · rintro v es xs u s hxs ⟨-, hp⟩ htext hkey hs
    refine ⟨?_, hroom hkey (fun h => hs (.inl h)) htext⟩
    have hmem : (Step.kindField, v.kind.name) ∈ xs := hp.symm.subset List.mem_cons_self
    obtain ⟨e, he, hgives⟩ := hxs.exists_of_mem hmem
    have hkind : names e v.kind := by
      cases hgives with
      | kind h => exact hpart.names_of_kind h
      | other _ h => exact absurd rfl (kindField_ne_of_pairOf h)
    have hfield : s ∉ v.kind.fieldNames := fun h => hs (.inr ⟨e, he, v.kind, hkind, h⟩)
    obtain ⟨d, hd⟩ := hpart.exists_other hkey (fun h => hs (.inl h)) htext
    refine .other hd (.unknown ?_)
    rw [Content.fieldName, Except.ok.injEq, List.find?_eq_none]
    intro name hname hbeq
    exact hfield (eq_of_beq hbeq ▸ hname)
  · rintro v es e s (rfl | ⟨c, hc, kd, hkind, hs⟩) hgiven hkey o ho
    · cases ho with
      | kind _ => exact ⟨_, rfl, rfl⟩
      | other h _ =>
        obtain ⟨kd, hp⟩ := hpart.kind_of_key hkey h
        cases hp
    · have hkd : v.kind = kd := by
        obtain ⟨o, ho⟩ := hgiven c hc
        cases ho with
        | kind h => exact Sum.inl.inj (hpart.kind_of_names hkind h)
        | other h _ => cases hpart.kind_of_names hkind h
      subst hkd
      have hne : s ≠ Step.kindField := fun h => v.kind.kindField_notMem_fieldNames (h ▸ hs)
      cases ho with
      | kind h =>
        obtain ⟨d, hp⟩ := hpart.other_of_key hkey hne h
        cases hp
      | other h hpair =>
        obtain ⟨d, hp⟩ := hpart.other_of_key hkey hne h
        cases hp
        have hfield : Content.fieldName v.kind (.text s) = .ok (some s) := by
          rw [Content.fieldName, Content.find?_fieldNames hs]
        cases hpair with
        | unknown hnone => cases hfield.symm.trans hnone
        | field hsome =>
          cases hfield.symm.trans hsome
          exact ⟨_, rfl, rfl⟩

end Parts

end Decode

end ImageRecipe
