import ImageRecipe.Proofs.Decode.StepParts

/-!
# Steps from entries in any order

For each of the two formats, what the parts of a step are: `PartAt` and
`TreeReading.PartOf` tell it by the readers of the entry, `partsByKey` by the
texts in it.
-/

namespace ImageRecipe

open Decode

/-! ### YAML -/

def Yaml.Entry.NamesKind (e : Yaml.Entry) (kd : StepKind) : Prop :=
  e.HasKey Step.kindField ∧ ∃ tag style, (e.unfolded 1).2.target = .scalar tag style kd.name

namespace Decode.Reading

open Yaml

variable {as : List (Nat × Node)} {n : Node} {room : Nat} {place : Place}

/-! #### Texts, through aliases -/

/-- Content is what an alias is followed to, and only scalars are texts. -/
theorem content_eq (as : List (Nat × Node)) (expected : Expected) (room : Nat) (place : Place)
    (n : Node) : ∃ rest : Node → Reading Content,
      content as expected room place n = within place (follow as n >>= rest) ∧
        (∀ p style t, rest (.scalar p style t) = scalarContent expected p style t) ∧
        ∀ {m s c}, YieldsAfter c (rest m) (.text s) → ∃ p style t, m = .scalar p style t := by
  cases room with
  | zero =>
    refine ⟨_, rfl, fun _ _ _ => rfl, fun {m s c} h => ?_⟩
    cases m with
    | scalar p style t => exact ⟨p, style, t, rfl⟩
    | _ => exact (YieldsAfter.not_throw _ h).elim
  | succ room =>
    refine ⟨_, rfl, fun _ _ _ => rfl, fun {m s c} h => ?_⟩
    cases m with
    | scalar p style t => exact ⟨p, style, t, rfl⟩
    | sequence p ns | mapping p es =>
      dsimp only at h
      split at h
      · exact (YieldsAfter.not_throw _ h).elim
      · obtain ⟨_, h⟩ := YieldsAfter.exists_of_map h
        cases h
    | _ => exact (YieldsAfter.not_throw _ h).elim

theorem exists_yieldsAfter_content {s : String} (h : (n.unfolding as 1).IsText s)
    (expected : Expected) (room : Nat) (place : Place) :
    ∃ c ≤ 1, YieldsAfter c (content as expected room place n) (.text s) := by
  obtain ⟨rest, hrest, hscalar, -⟩ := content_eq as expected room place n
  rw [hrest]
  simp only [YieldsAfter.within_iff]
  refine exists_yieldsAfter_follow h fun m hm => ?_
  obtain ⟨p, style, rfl, hlocal, hmeaning⟩ := hm
  rw [hscalar]
  simp only [scalarContent, hlocal, hmeaning]
  exact Yields.pure _

theorem isText_of_yields_scalarContent {expected : Expected} {p : Properties} {style : Style}
    {t s : String} {c : Nat} (h : YieldsAfter c (scalarContent expected p style t) (.text s)) :
    IsText (.scalar p style t) s := by
  rw [scalarContent] at h
  cases hlocal : localTag? p with
  | some tag =>
    rw [hlocal] at h
    exact (YieldsAfter.not_throw _ h).elim
  | none =>
    rw [hlocal] at h
    cases hmeaning : meaning p style t with
    | error cause =>
      rw [hmeaning] at h
      exact (YieldsAfter.not_throw _ h).elim
    | ok m =>
      rw [hmeaning] at h
      cases m with
      | text =>
        cases (YieldsAfter.pure_iff.mp h).2
        exact ⟨p, style, rfl, hlocal, hmeaning⟩
      | int i =>
        cases hi : (decide (i < -Number.bits 63) || decide (Number.bits 64 ≤ i)) with
        | true =>
          simp only [hi] at h
          exact (YieldsAfter.not_throw _ h).elim
        | false =>
          simp only [hi] at h
          cases (YieldsAfter.pure_iff.mp h).2
      | null | bool _ | float _ => cases (YieldsAfter.pure_iff.mp h).2

/-- Only a text is read as a text. -/
theorem isText_of_yieldsAfter_content {expected : Expected} {s : String} {c : Nat}
    (h : YieldsAfter c (content as expected room place n) (.text s)) :
    (n.unfolding as 1).IsText s := by
  obtain ⟨rest, hrest, hscalar, htext⟩ := content_eq as expected room place n
  rw [hrest, YieldsAfter.within_iff, (agree_follow_self as n).yieldsAfter_bind_iff] at h
  obtain ⟨m, c₁, c₂, hfollow, hm, -⟩ := h
  obtain ⟨p, style, t, rfl⟩ := htext hm
  rw [hscalar] at hm
  obtain ⟨p', style', heq, hlocal, hmeaning⟩ := isText_of_yields_scalarContent hm
  cases heq
  exact ⟨p.tag, style, target_eq_scalar_iff.mpr ⟨_, _, hfollow⟩, hlocal, hmeaning⟩

theorem target_of_yieldsAfter_kind {kd : StepKind} {c : Nat}
    (h : YieldsAfter c (kind as place n) kd) :
    ∃ tag style, (n.unfolding as 1).target = .scalar tag style kd.name := by
  rw [kind, YieldsAfter.within_iff,
    (agree_text .variant place (.refl as n)).yieldsAfter_bind_iff] at h
  obtain ⟨s, c₁, c₂, hs, hkind, -⟩ := h
  obtain rfl := stepKind_eq_ok_iff.mp (YieldsAfter.lift_iff.mp hkind).2
  rw [text, YieldsAfter.within_iff, (agree_follow_self as n).yieldsAfter_bind_iff] at hs
  obtain ⟨m, c₁, c₂, hfollow, hm, -⟩ := hs
  cases m with
  | scalar p style t =>
    cases (YieldsAfter.pure_iff.mp hm).2
    exact ⟨p.tag, style, target_eq_scalar_iff.mpr ⟨_, _, hfollow⟩⟩
  | _ => exact (YieldsAfter.not_throw _ hm).elim

/-! #### The parts of a step -/

/-- What an entry of a step holds, and after how many aliases: its kind, if that is what the key
says, or content. -/
inductive PartAt (as : List (Nat × Node)) (room : Nat) (place : Place) :
    Node × Node → StepKind ⊕ (Content × Content) → Nat → Prop
  | kind {k v : Node} {kd : StepKind} {c d : Nat}
      (hkey : YieldsAfter c (content as .kindField room place k) (.text Step.kindField))
      (h : YieldsAfter d (kind as (valuePlace place k) v) kd) :
      PartAt as room place (k, v) (.inl kd) (c + d)
  | other {k v : Node} {x y : Content} {c d : Nat}
      (hkey : YieldsAfter c (content as .kindField room place k) x)
      (hx : x ≠ .text Step.kindField)
      (h : YieldsAfter d (content as .anyValue room (valuePlace place k) v) y) :
      PartAt as room place (k, v) (.inr (x, y)) (c + d)

def PartOf (room : Nat) (place : Place) (e : Entry) (p : StepKind ⊕ (Content × Content))
    (c : Nat) : Prop :=
  ∃ as n, Entry.of as n = e ∧ PartAt as room place n p c

def HoldsPart (room : Nat) (place : Place) (e : Entry) (p : StepKind ⊕ (Content × Content)) :
    Prop :=
  ∃ c, PartOf room place e p c

def PartCost (room : Nat) (place : Place) (e : Entry) (c : Nat) : Prop :=
  ∃ p, PartOf room place e p c

/-- Entries that unfold alike hold the same. -/
theorem PartAt.congr {as as' : List (Nat × Node)} {e e' : Node × Node}
    {p : StepKind ⊕ (Content × Content)} {c : Nat} (he : Entry.of as e = Entry.of as' e')
    (h : PartAt as room place e p c) : PartAt as' room place e' p c := by
  obtain ⟨k', v'⟩ := e'
  obtain ⟨hk, hv⟩ := Entry.of_eq_of_iff.mp he
  cases h with
  | kind hkey h =>
    refine .kind ((agree_content .kindField room place hk).eq ▸ hkey) ?_
    rw [← valuePlace_eq place hk, ← (agree_kind _ hv).eq]
    exact h
  | other hkey hx h =>
    refine .other ((agree_content .kindField room place hk).eq ▸ hkey) hx ?_
    rw [← valuePlace_eq place hk, ← (agree_content .anyValue room _ hv).eq]
    exact h

theorem partOf_of_iff {e : Node × Node} {p : StepKind ⊕ (Content × Content)} {c : Nat} :
    PartOf room place (Entry.of as e) p c ↔ PartAt as room place e p c :=
  ⟨fun ⟨_, _, he, h⟩ => h.congr he, fun h => ⟨as, e, rfl, h⟩⟩

/-- An entry holds one thing. -/
theorem PartOf.unique {e : Entry} {p p' : StepKind ⊕ (Content × Content)} {c c' : Nat}
    (h : PartOf room place e p c) (h' : PartOf room place e p' c') : p = p' ∧ c = c' := by
  obtain ⟨as, n, rfl⟩ := e.exists_of
  rw [partOf_of_iff] at h h'
  cases h with
  | kind hkey h =>
    cases h' with
    | kind hkey' h' =>
      obtain ⟨hc, -⟩ := hkey.unique hkey'
      obtain ⟨hd, rfl⟩ := h.unique h'
      exact ⟨rfl, congrArg₂ (· + ·) hc hd⟩
    | other hkey' hx _ => exact absurd (hkey'.unique hkey).2 hx
  | other hkey hx h =>
    cases h' with
    | kind hkey' _ => exact absurd (hkey.unique hkey').2 hx
    | other hkey' _ h' =>
      obtain ⟨hc, rfl⟩ := hkey.unique hkey'
      obtain ⟨hd, rfl⟩ := h.unique h'
      exact ⟨rfl, congrArg₂ (· + ·) hc hd⟩

/-- **The entries are read part by part.** -/
theorem yieldsAfter_kindEntries_iff {found : Option StepKind} {es : List (Node × Node)}
    {kd : StepKind} {cs : List (Content × Content)} {c : Nat} :
    YieldsAfter c (kindEntries as room place found es) (kd, cs) ↔
      Costs (PartCost room place) (es.map (Entry.of as)) c ∧
        Parts (HoldsPart room place) found (es.map (Entry.of as)) kd cs := by
  induction es generalizing found kd cs c with
  | nil =>
    cases found with
    | none =>
      constructor
      · exact fun h => (YieldsAfter.not_throw _ h).elim
      · rintro ⟨-, h⟩
        cases h
    | some k =>
      constructor
      · intro h
        obtain ⟨rfl, hpair⟩ := YieldsAfter.pure_iff.mp h
        cases hpair
        exact ⟨.nil, .nil kd⟩
      · rintro ⟨hc, h⟩
        cases hc
        cases h
        exact YieldsAfter.pure_iff.mpr ⟨rfl, rfl⟩
  | cons e es ih =>
    obtain ⟨k, v⟩ := e
    have hrest (found : Option StepKind) :
        Agree (as = []) (kindEntries as room place found es) _ :=
      agree_kindEntries room place found (Same.refl_entries as es)
    rw [kindEntries, (agree_content .kindField room place (.refl as k)).yieldsAfter_bind_iff]
    constructor
    · rintro ⟨x, c₁, c₂, hx, h, rfl⟩
      split at h
      · cases found with
        | some _ => exact (YieldsAfter.not_throw _ h).elim
        | none =>
          obtain ⟨kd', c₃, c₄, hkind, hlater, rfl⟩ :=
            (agree_kind _ (.refl as v)).yieldsAfter_bind_iff.mp h
          obtain ⟨hcosts, hparts⟩ := ih.mp hlater
          have hpart : PartOf room place (Entry.of as (k, v)) (.inl kd') (c₁ + c₃) :=
            ⟨as, _, rfl, .kind hx hkind⟩
          rw [← Nat.add_assoc]
          exact ⟨.cons ⟨_, hpart⟩ hcosts, .kind ⟨_, hpart⟩ hparts⟩
      · next hne =>
        obtain ⟨y, c₃, c₄, hy, hlater, rfl⟩ :=
          (agree_content .anyValue room _ (.refl as v)).yieldsAfter_bind_iff.mp h
        obtain ⟨⟨kd', cs'⟩, c₅, c₆, hes, hpair, rfl⟩ :=
          (hrest found).yieldsAfter_bind_iff.mp hlater
        obtain ⟨rfl, hparts⟩ := YieldsAfter.pure_iff.mp hpair
        cases hparts
        obtain ⟨hcosts, hparts⟩ := ih.mp hes
        have hpart : PartOf room place (Entry.of as (k, v)) (.inr (x, y)) (c₁ + c₃) :=
          ⟨as, _, rfl, .other hx hne hy⟩
        rw [← Nat.add_assoc]
        exact ⟨.cons ⟨_, hpart⟩ hcosts, .other ⟨_, hpart⟩ hparts⟩
    · rintro ⟨hcosts, hparts⟩
      cases hcosts with
      | cons hcost hcosts =>
        obtain ⟨p, hcost⟩ := hcost
        cases hparts with
        | kind hpart hparts =>
          obtain ⟨_, hpart⟩ := hpart
          obtain ⟨rfl, rfl⟩ := hcost.unique hpart
          cases partOf_of_iff.mp hpart with
          | kind hkey hkind =>
            rw [Nat.add_assoc]
            refine ⟨_, _, _, hkey, ?_, rfl⟩
            split
            · exact hkind.bind (ih.mpr ⟨hcosts, hparts⟩)
            · next hne => exact absurd rfl hne
        | other hpart hparts =>
          obtain ⟨_, hpart⟩ := hpart
          obtain ⟨rfl, rfl⟩ := hcost.unique hpart
          cases partOf_of_iff.mp hpart with
          | other hkey hx hy =>
            rw [Nat.add_assoc]
            refine ⟨_, _, _, hkey, ?_, rfl⟩
            split
            · exact absurd rfl hx
            · refine hy.bind (YieldsAfter.bind (d := 0) (ih.mpr ⟨hcosts, hparts⟩) ?_)
              exact .of_yields (Yields.pure _)

theorem partsByKey : PartsByKey (HoldsPart room place) Entry.HasKey Entry.HasText
    Entry.NamesKind where
  kind_of_key hkey h := by
    obtain ⟨_, as, n, rfl, h⟩ := h
    obtain ⟨_, -, hread⟩ := exists_yieldsAfter_content hkey .kindField room place
    cases h with
    | kind _ _ => exact ⟨_, rfl⟩
    | other hx hne _ => exact absurd (hx.unique hread).2 hne
  other_of_key hkey hne h := by
    obtain ⟨_, as, n, rfl, h⟩ := h
    obtain ⟨_, -, hread⟩ := exists_yieldsAfter_content hkey .kindField room place
    cases h with
    | kind hx _ => exact absurd (hread.unique hx).2 (by simpa using hne)
    | other hx _ _ =>
      cases (hx.unique hread).2
      exact ⟨_, rfl⟩
  kind_of_names := by
    rintro _ kd p ⟨hkey, tag, style, htarget⟩ ⟨_, as, n, rfl, h⟩
    obtain ⟨_, -, hread⟩ := exists_yieldsAfter_content hkey .kindField room place
    cases h with
    | other hx hne _ => exact absurd (hx.unique hread).2 hne
    | kind _ h =>
      obtain ⟨_, _, htarget'⟩ := target_of_yieldsAfter_kind h
      have hname := (Unfolding.scalar.inj (htarget'.symm.trans htarget)).2.2
      rw [StepKind.name_injective hname]
  names_of_kind := by
    rintro _ kd ⟨_, as, n, rfl, h⟩
    cases h with
    | kind hkey h =>
      exact ⟨isText_of_yieldsAfter_content hkey, target_of_yieldsAfter_kind h⟩
  exists_other {e s} hkey hne := by
    rintro ⟨t, ht⟩
    obtain ⟨as, n, rfl⟩ := e.exists_of
    obtain ⟨c, -, hread⟩ := exists_yieldsAfter_content hkey .kindField room place
    obtain ⟨d, -, hvalue⟩ := exists_yieldsAfter_content ht .anyValue room (valuePlace place n.1)
    exact ⟨.text t, c + d, as, n, rfl, .other hread (by simpa using hne) hvalue⟩

/-- For a text under a key that is a text no more aliases are followed than it makes room for. -/
theorem FollowsWithin.cons_part {u : Entry} {s : String} {us : List Entry} (hkey : u.HasKey s)
    (hs : s ≠ Step.kindField) (htext : u.HasText) (h : FollowsWithin (PartCost room place) us) :
    FollowsWithin (PartCost room place) (u :: us) := by
  obtain ⟨as, ⟨k, v⟩, rfl⟩ := u.exists_of
  obtain ⟨t, ht⟩ := id htext
  obtain ⟨c, hc, hread⟩ := exists_yieldsAfter_content hkey .kindField room place
  obtain ⟨d, hd, hvalue⟩ := exists_yieldsAfter_content ht .anyValue room (valuePlace place k)
  have hpart : PartOf room place (Entry.of as (k, v)) (.inr (.text s, .text t)) (c + d) :=
    ⟨as, _, rfl, .other hread (by simpa using hs) hvalue⟩
  exact h.cons hkey htext ⟨_, hpart⟩ (Nat.add_le_add hc hd)

/-- A mapping under a tag of the document's own is no step. -/
theorem yieldsAfter_kindAndContent_iff {p : Properties} {es : List (Node × Node)} {kd : StepKind}
    {x : Content} {c : Nat} :
    YieldsAfter c (kindAndContent as (room + 1) place (.mapping p es)) (kd, x) ↔
      localTag? p = none ∧ Costs (PartCost room place) (es.map (Entry.of as)) c ∧
        ∃ cs, Parts (HoldsPart room place) none (es.map (Entry.of as)) kd cs ∧ x = .mapping cs := by
  have hfollow : follow as (.mapping p es) = pure (.mapping p es) := rfl
  rw [kindAndContent, YieldsAfter.within_iff, hfollow, pure_bind]
  cases hlocal : localTag? p with
  | some tag =>
    simp only [hlocal]
    exact iff_of_false (YieldsAfter.not_throw _) fun h => nomatch h.1
  | none =>
    simp only [hlocal, Option.isSome_none, Bool.false_eq_true, if_false, pure_bind, true_and]
    have hself : Agree (as = []) (kindEntries as room place none es) _ :=
      agree_kindEntries room place none (Same.refl_entries as es)
    constructor
    · intro h
      obtain ⟨⟨kd', cs⟩, c₁, c₂, hread, hpair, rfl⟩ := hself.yieldsAfter_bind_iff.mp h
      obtain ⟨rfl, heq⟩ := YieldsAfter.pure_iff.mp hpair
      cases heq
      obtain ⟨hcosts, hparts⟩ := yieldsAfter_kindEntries_iff.mp hread
      exact ⟨hcosts, cs, hparts, rfl⟩
    · rintro ⟨hcosts, cs, hparts, rfl⟩
      refine YieldsAfter.bind (d := 0) (yieldsAfter_kindEntries_iff.mpr ⟨hcosts, hparts⟩) ?_
      exact .of_yields (Yields.pure _)

theorem readYaml_kindAndContent_iff {tag : Option String} {t : String} {es : List Entry}
    (h : RootEntries tag t es) {kd : StepKind} {x : Content} :
    readYaml (fun anchors => kindAndContent anchors (room + 1)) t = .ok (kd, x) ↔
      localTag? { tag } = none ∧ FollowsWithin (PartCost room []) es ∧
        ∃ cs, Parts (HoldsPart room []) none es kd cs ∧ x = .mapping cs := by
  have hself := agree_kindAndContent (room + 1) [] (.refl (Document.load t).anchors
    (Document.load t).root)
  obtain ⟨anchor, ns, hroot, rfl⟩ := id h.root
  have hlocal : localTag? ⟨anchor, tag⟩ = localTag? { tag } := rfl
  rw [readYaml_eq_ok_iff hself h.complete, h.aliasLimit_eq, hroot]
  simp only [yieldsAfter_kindAndContent_iff, hlocal]
  exact ⟨fun ⟨c, hle, hlocal, hc, hx⟩ => ⟨hlocal, ⟨c, hc, hle⟩, hx⟩,
    fun ⟨hlocal, ⟨c, hc, hle⟩, hx⟩ => ⟨c, hle, hlocal, hc, hx⟩⟩

/-- The two passes over a text. -/
theorem readStep_eq_ok_iff {tag : Option String} {t : String} {es : List Entry}
    (h : RootEntries tag t es) {s : Step} : readStep t = .ok s ↔
      localTag? { tag } = none ∧ FollowsWithin (PartCost (depthLimit - 1) []) es ∧
        ∃ kd cs, Parts (HoldsPart (depthLimit - 1) []) none es kd cs ∧
          Content.step kd (.mapping cs) = .ok s := by
  have hread {kd : StepKind} {x : Content} :
      readYaml (fun anchors => kindAndContent anchors depthLimit) t = .ok (kd, x) ↔ _ :=
    readYaml_kindAndContent_iff h
  rw [readStep, bind_eq_ok_iff]
  constructor
  · rintro ⟨⟨kd, x⟩, hx, hs⟩
    obtain ⟨hlocal, hfits, cs, hcs, rfl⟩ := hread.mp hx
    exact ⟨hlocal, hfits, kd, cs, hcs, hs⟩
  · rintro ⟨hlocal, hfits, kd, cs, hcs, hs⟩
    exact ⟨(kd, .mapping cs), hread.mpr ⟨hlocal, hfits, cs, hcs, rfl⟩, hs⟩

end Decode.Reading

namespace Decode

/-! ### JSON -/

namespace TreeReading

open Json (Tree)

variable {room : Nat}

/-- What a member of a step holds: its kind, if that is what the key says, or content. -/
inductive PartOf (room : Nat) (m : Tree × Tree) : StepKind ⊕ (Content × Content) → Prop
  | kind {kd : StepKind} (hkey : HasKey m Step.kindField) (h : kind m.2 = .ok kd) :
      PartOf room m (.inl kd)
  | other {s : String} {d : Content} (hkey : HasKey m s) (hs : s ≠ Step.kindField)
      (h : content room m.2 = .ok d) : PartOf room m (.inr (.text s, d))

def NamesKind (m : Tree × Tree) (kd : StepKind) : Prop :=
  m = (.string Step.kindField, .string kd.name)

theorem kind_eq_ok_iff {t : Tree} {kd : StepKind} : kind t = .ok kd ↔ t = .string kd.name := by
  rw [kind, bind_eq_ok_iff]
  constructor
  · rintro ⟨s, hs, h⟩
    cases t with
    | string t =>
      cases hs
      rw [stepKind_eq_ok_iff.mp h]
    | _ => cases hs
  · rintro rfl
    exact ⟨kd.name, rfl, stepKind_eq_ok_iff.mpr rfl⟩

theorem kindMembers_cons (found : Option StepKind) (s : String) (v : Tree)
    (ms : List (Tree × Tree)) : kindMembers room found ((.string s, v) :: ms) =
      if s = Step.kindField then do
        if found.isSome then throw (.misfits (.duplicateField Step.kindField))
        let kd ← kind v
        kindMembers room (some kd) ms
      else do
        let c ← content room v
        let (kd, rest) ← kindMembers room found ms
        return (kd, (.text s, c) :: rest) := by
  cases found <;> rfl

theorem exists_key_of_kindMembers {found : Option StepKind} {k v : Tree} {ms : List (Tree × Tree)}
    {x : StepKind × List (Content × Content)}
    (h : kindMembers room found ((k, v) :: ms) = .ok x) : ∃ s, k = .string s := by
  cases k with
  | string s => exact ⟨s, rfl⟩
  | _ => cases found <;> cases h

/-- **The members are read part by part.** -/
theorem kindMembers_eq_ok_iff {found : Option StepKind} {ms : List (Tree × Tree)} {kd : StepKind}
    {cs : List (Content × Content)} :
    kindMembers room found ms = .ok (kd, cs) ↔ Parts (PartOf room) found ms kd cs := by
  induction ms generalizing found kd cs with
  | nil =>
    cases found with
    | none => exact ⟨nofun, nofun⟩
    | some k =>
      constructor
      · intro h
        cases h
        exact .nil kd
      · intro h
        cases h
        rfl
  | cons m ms ih =>
    obtain ⟨k, v⟩ := m
    constructor
    · intro h
      obtain ⟨s, rfl⟩ := exists_key_of_kindMembers h
      rw [kindMembers_cons] at h
      by_cases hs : s = Step.kindField
      · rw [if_pos hs] at h
        cases found with
        | some _ => cases h
        | none =>
          obtain ⟨k, hk, h⟩ := bind_eq_ok_iff.mp h
          exact .kind (.kind (congrArg Tree.string hs) hk) (ih.mp h)
      · rw [if_neg hs] at h
        obtain ⟨d, hd, h⟩ := bind_eq_ok_iff.mp h
        obtain ⟨⟨k, rest⟩, hrest, h⟩ := bind_eq_ok_iff.mp h
        cases h
        exact .other (.other rfl hs hd) (ih.mp hrest)
    · intro h
      cases h with
      | kind h hms =>
        cases h with
        | kind hkey hk =>
          obtain rfl : k = .string Step.kindField := hkey
          rw [kindMembers_cons, if_pos rfl]
          exact bind_eq_ok_iff.mpr ⟨_, hk, ih.mpr hms⟩
      | other h hms =>
        cases h with
        | @other s d hkey hs hd =>
          obtain rfl : k = .string s := hkey
          rw [kindMembers_cons, if_neg hs]
          exact bind_eq_ok_iff.mpr ⟨d, hd, bind_eq_ok_iff.mpr ⟨_, ih.mpr hms, rfl⟩⟩

theorem partsByKey : PartsByKey (PartOf room) HasKey HasText NamesKind where
  kind_of_key hkey h := by
    cases h with
    | kind _ _ => exact ⟨_, rfl⟩
    | other hs hne _ => exact absurd (Tree.string.inj (hs.symm.trans hkey)) hne
  other_of_key hkey hne h := by
    cases h with
    | kind hs _ => exact absurd (Tree.string.inj (hkey.symm.trans hs)) hne
    | other hs _ _ =>
      obtain rfl := Tree.string.inj (hs.symm.trans hkey)
      exact ⟨_, rfl⟩
  kind_of_names := by
    rintro _ kd p rfl h
    cases h with
    | kind _ h =>
      have hname := Tree.string.inj (kind_eq_ok_iff.mp h)
      rw [StepKind.name_injective hname]
    | other hs hne _ => exact absurd (Tree.string.inj hs).symm hne
  names_of_kind h := by
    cases h with
    | kind hkey hkind => exact Prod.ext hkey (kind_eq_ok_iff.mp hkind)
  exists_other hkey hne := by
    rintro ⟨t, ht⟩
    exact ⟨.text t, .other hkey hne (by rw [ht]; rfl)⟩

theorem step_eq_ok_iff {ms : List (Tree × Tree)} {s : Step} : step (.object ms) = .ok s ↔
    ∃ kd cs, Parts (PartOf (depthLimit - 1)) none ms kd cs ∧
      Content.step kd (.mapping cs) = .ok s := by
  rw [step, bind_eq_ok_iff]
  constructor
  · rintro ⟨⟨kd, c⟩, hc, hs⟩
    obtain ⟨⟨k, cs⟩, hcs, h⟩ := bind_eq_ok_iff.mp hc
    cases h
    exact ⟨kd, cs, kindMembers_eq_ok_iff.mp hcs, hs⟩
  · rintro ⟨kd, cs, hcs, hs⟩
    exact ⟨(kd, .mapping cs),
      bind_eq_ok_iff.mpr ⟨(kd, cs), kindMembers_eq_ok_iff.mpr hcs, rfl⟩, hs⟩

end TreeReading

end Decode

/-! ### The decoders -/

theorem Step.unordered_yaml (tag : Option String) :
    Unordered ofYaml (Yaml.RootEntries tag) Yaml.Entry.HasKey Yaml.Entry.HasText
      (KnownName Yaml.Entry.NamesKind) :=
  unordered_step (Reading.HoldsPart (depthLimit - 1) []) (Reading.localTag? { tag } = none)
    (Reading.FollowsWithin (Reading.PartCost (depthLimit - 1) []))
    (fun h => (orFailure_eq_ok_iff .yaml).trans (Reading.readStep_eq_ok_iff h))
    Reading.FollowsWithin.perm Reading.FollowsWithin.cons_part Reading.partsByKey

end ImageRecipe
