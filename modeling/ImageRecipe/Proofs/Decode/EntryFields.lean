import ImageRecipe.Proofs.Decode.Aliases
import ImageRecipe.Proofs.Decode.Gather

/-!
# Fields from the entries of a document

The reader of a YAML record takes the entries one after the other, and yet what
it reads is gathered from them: `yieldsAfter_fields_iff` says so, and how many
aliases are followed on the way.  What an entry gives is told by what it unfolds
to, so nothing here depends on the document that an entry stands in.
-/

namespace ImageRecipe

open Decode Yaml

theorem Decode.lookup_eq_none_iff {α : Type} {fs : List (String × α)} {s : String} :
    fs.lookup s = none ↔ s ∉ fs.map (·.1) := by
  rw [List.lookup_eq_none_iff]
  simp only [bne_iff_ne, List.mem_map, not_exists, not_and]
  exact forall₂_congr fun f _ => ne_comm

theorem Decode.mem_of_lookup {α : Type} {fs : List (String × α)} {s : String} {x : α}
    (h : fs.lookup s = some x) : (s, x) ∈ fs := by
  obtain ⟨l, l', rfl, -⟩ := List.lookup_eq_some_iff.mp h
  simp

namespace Decode.Reading

def IsText (n : Node) (s : String) : Prop :=
  ∃ p style, n = .scalar p style s ∧ localTag? p = none ∧ meaning p style s = .ok .text

end Decode.Reading

namespace Yaml

/-- A text, and nothing else, that stands there or that an alias there refers to. -/
def Unfolding.IsText (u : Unfolding) (s : String) : Prop :=
  ∃ tag style, u.target = .scalar tag style s ∧ Reading.localTag? { tag } = none ∧
    Reading.meaning { tag } style s = .ok .text

namespace Entry

def HasKey (e : Entry) (s : String) : Prop :=
  (e.unfolded 1).1.IsText s

def HasText (e : Entry) : Prop :=
  ∃ s, (e.unfolded 1).2.IsText s

end Entry

end Yaml

namespace Decode.Reading

variable {as : List (Nat × Node)} {n m : Node} {c : Nat}

theorem yieldsAfter_follow_alias_iff {number : Nat} :
    YieldsAfter c (follow as (.alias number)) m ↔ c = 1 ∧ as.lookup number = some m := by
  rw [← bind_pure (follow as (.alias number)), follow_alias_bind]
  cases as.lookup number with
  | none =>
    refine iff_of_false (fun h => ?_) nofun
    have h0 := h 0
    cases c <;> cases h0
  | some m' =>
    constructor
    · intro h
      have h0 := h 0
      cases c with
      | zero => cases h0
      | succ c =>
        cases Except.ok.inj h0
        exact ⟨rfl, rfl⟩
    · rintro ⟨rfl, hm⟩ k
      cases hm
      rw [Nat.add_comm]
      rfl

/-- A scalar that stands there, or in place of an alias, is found there. -/
theorem target_eq_scalar_iff {tag : Option String} {style : Style} {s : String} :
    (n.unfolding as 1).target = .scalar tag style s ↔
      ∃ a c, YieldsAfter c (follow as n) (.scalar ⟨a, tag⟩ style s) := by
  cases n with
  | «alias» number =>
    simp only [yieldsAfter_follow_alias_iff, exists_eq_left]
    have htarget : ((Node.alias number).unfolding as 1).target
        = (Unfolding.link ((as.lookup number).map (Node.unfolding as 0))).target := rfl
    rw [htarget]
    cases as.lookup number with
    | none => exact iff_of_false nofun nofun
    | some m =>
      constructor
      · intro h
        cases m with
        | scalar p _ _ =>
          cases h
          exact ⟨p.anchor, rfl⟩
        | _ => cases h
      · rintro ⟨a, hm⟩
        cases hm
        rfl
  | scalar p style' t =>
    constructor
    · intro h
      cases h
      exact ⟨p.anchor, 0, .of_yields (Yields.pure _)⟩
    · rintro ⟨a, c, h⟩
      cases (YieldsAfter.pure_iff.mp h).2
      rfl
  | _ =>
    refine iff_of_false nofun ?_
    rintro ⟨a, c, h⟩
    cases (YieldsAfter.pure_iff.mp h).2

/-- One alias is all that is followed, from a node that is one event. -/
theorem le_one_of_follow {p : Properties} {style : Style} {s : String}
    (h : YieldsAfter c (follow as n) (.scalar p style s)) :
    c ≤ 1 ∧ n.size = 1 ∧ n.isBroken = false := by
  cases n with
  | «alias» number => exact ⟨(yieldsAfter_follow_alias_iff.mp h).1.le, rfl, rfl⟩
  | scalar _ _ _ => exact ⟨(YieldsAfter.pure_iff.mp h).1 ▸ Nat.zero_le 1, rfl, rfl⟩
  | _ => cases (YieldsAfter.pure_iff.mp h).2

end Decode.Reading

namespace Decode.Reading

variable {as : List (Nat × Node)} {n : Node} {s : String}

/-- A text is found that stands there or that an alias refers to. -/
theorem exists_yieldsAfter_follow {α : Type} {f : Node → Reading α} {x : α}
    (h : (n.unfolding as 1).IsText s) (hf : ∀ m, IsText m s → Yields (f m) x) :
    ∃ c ≤ 1, YieldsAfter c (follow as n >>= f) x := by
  obtain ⟨tag, style, htarget, hlocal, hmeaning⟩ := h
  obtain ⟨a, c, hfollow⟩ := target_eq_scalar_iff.mp htarget
  exact ⟨c, (le_one_of_follow hfollow).1,
    hfollow.bind (.of_yields (hf _ ⟨_, style, rfl, hlocal, hmeaning⟩))⟩

theorem IsText.yields_text (h : IsText n s) (expected : Expected) (place : Place) :
    Yields (text as expected place n) s := by
  obtain ⟨p, style, rfl, -⟩ := h
  exact Reading.yields_text expected place p style s

theorem exists_yieldsAfter_text (h : (n.unfolding as 1).IsText s) (expected : Expected)
    (place : Place) : ∃ c ≤ 1, YieldsAfter c (text as expected place n) s := by
  simp only [text, YieldsAfter.within_iff]
  refine exists_yieldsAfter_follow h fun m hm => ?_
  obtain ⟨p, style, rfl, -⟩ := hm
  exact Yields.pure s

/-- A text is one event. -/
theorem size_of_isText (h : (n.unfolding as 1).IsText s) : n.size = 1 ∧ n.isBroken = false := by
  obtain ⟨tag, style, htarget, -⟩ := h
  obtain ⟨a, c, hfollow⟩ := target_eq_scalar_iff.mp htarget
  exact (le_one_of_follow hfollow).2

variable {φ : Type} {known : List (Nat × Node) → Fields φ} {name : φ → String}

/-- What an entry gives the reader of the fields in `known`, and after how many aliases: the field
that its key names, or nothing if there is no such field. -/
inductive FieldAt (as : List (Nat × Node)) (known : Fields φ) :
    Node × Node → Option φ → Nat → Prop
  | unknown {k v : Node} {s : String} {c : Nat}
      (hkey : YieldsAfter c (text as .field [] k) s) (hs : known.lookup s = none)
      (hv : v.isBroken = false) : FieldAt as known (k, v) none c
  | known {k v : Node} {s : String} {read : Place → Node → Reading φ} {x : φ} {c d : Nat}
      (hkey : YieldsAfter c (text as .field [] k) s) (hs : known.lookup s = some read)
      (hv : YieldsAfter d (read (valuePlace [] k) v) x) :
      FieldAt as known (k, v) (some x) (c + d)

/-- What an entry gives, in whatever document it stands. -/
def FieldOf (known : List (Nat × Node) → Fields φ) (e : Entry) (o : Option φ) (c : Nat) : Prop :=
  ∃ as n, Entry.of as n = e ∧ FieldAt as (known as) n o c

def GivesField (known : List (Nat × Node) → Fields φ) (e : Entry) (o : Option φ) : Prop :=
  ∃ c, FieldOf known e o c

def FieldCost (known : List (Nat × Node) → Fields φ) (e : Entry) (c : Nat) : Prop :=
  ∃ o, FieldOf known e o c

/-- Every known field is read as a field of its own name. -/
def ReadsNamed (known : List (Nat × Node) → Fields φ) (name : φ → String) : Prop :=
  ∀ {as s read place v c x}, (known as).lookup s = some read →
    YieldsAfter c (read place v) x → name x = s

/-- The readers of the fields know nothing of a document but what its aliases refer to. -/
def AgreeEverywhere (known : List (Nat × Node) → Fields φ) : Prop :=
  ∀ as as', AgreeFields as as' (known as) (known as')

/-- Entries that unfold alike give the same. -/
theorem FieldAt.congr {as as' : List (Nat × Node)} {e e' : Node × Node} {o : Option φ} {c : Nat}
    (hknown : AgreeEverywhere known) (he : Entry.of as e = Entry.of as' e')
    (h : FieldAt as (known as) e o c) : FieldAt as' (known as') e' o c := by
  obtain ⟨k', v'⟩ := e'
  obtain ⟨hk, hv⟩ := Entry.of_eq_of_iff.mp he
  cases h with
  | @unknown _ _ s _ hkey hs hbroken =>
    have hlookup := (hknown as as').lookup s
    rw [hs] at hlookup
    generalize hs' : (known as').lookup s = o' at hlookup
    cases hlookup
    exact .unknown ((agree_text .field [] hk).eq ▸ hkey) hs' ((isBroken_eq hv).symm.trans hbroken)
  | @known _ _ s read x _ _ hkey hs hx =>
    have hlookup := (hknown as as').lookup s
    rw [hs] at hlookup
    generalize hs' : (known as').lookup s = o' at hlookup
    cases hlookup with
    | some hread =>
      refine .known ((agree_text .field [] hk).eq ▸ hkey) hs' ?_
      rw [← valuePlace_eq [] hk, ← (hread _ hv).eq]
      exact hx

theorem fieldOf_of_iff (hknown : AgreeEverywhere known) {e : Node × Node} {o : Option φ} {c : Nat} :
    FieldOf known (Entry.of as e) o c ↔ FieldAt as (known as) e o c :=
  ⟨fun ⟨_, _, he, h⟩ => h.congr hknown he, fun h => ⟨as, e, rfl, h⟩⟩

/-- The reader of a known field follows a definite number of aliases. -/
theorem AgreeEverywhere.self (hknown : AgreeEverywhere known)
    {read : Place → Node → Reading φ} (hs : (known as).lookup s = some read) (place : Place)
    (n : Node) : Agree (as = []) (read place n) (read place n) := by
  have hlookup := (hknown as as).lookup s
  rw [hs] at hlookup
  cases hlookup with
  | some hread => exact hread place (.refl as n)

/-- An entry gives one thing. -/
theorem FieldOf.unique (hknown : AgreeEverywhere known) {e : Entry} {o o' : Option φ} {c c' : Nat}
    (h : FieldOf known e o c) (h' : FieldOf known e o' c') : o = o' ∧ c = c' := by
  obtain ⟨as, n, rfl⟩ := e.exists_of
  rw [fieldOf_of_iff hknown] at h h'
  cases h with
  | unknown hkey hs _ =>
    cases h' with
    | unknown hkey' _ _ => exact ⟨rfl, (hkey.unique hkey').1⟩
    | known hkey' hs' _ =>
      cases (hkey.unique hkey').2
      cases hs.symm.trans hs'
  | known hkey hs hx =>
    cases h' with
    | unknown hkey' hs' _ =>
      cases (hkey.unique hkey').2
      cases hs.symm.trans hs'
    | known hkey' hs' hx' =>
      obtain ⟨hc, rfl⟩ := hkey.unique hkey'
      obtain rfl := Option.some.inj (hs.symm.trans hs')
      obtain ⟨hd, rfl⟩ := hx.unique hx'
      exact ⟨rfl, congrArg₂ (· + ·) hc hd⟩

theorem yieldsAfter_ignore_bind_iff {α : Type} {r : Reading α} {x : α} {c : Nat} :
    YieldsAfter c (ignore n >>= fun _ => r) x ↔ n.isBroken = false ∧ YieldsAfter c r x := by
  rw [ignore]
  cases n.isBroken with
  | false => exact ⟨fun h => ⟨rfl, h⟩, fun h => h.2⟩
  | true => exact ⟨fun h => (YieldsAfter.not_throw _ h).elim, fun h => Bool.noConfusion h.1⟩

/-- A field is taken if its name is new. -/
theorem yieldsAfter_take_iff {free : Prop} {seen : List String} {r : Reading φ}
    {q : Reading (List φ)} (hr : Agree free r r) (hq : Agree free q q) {xs : List φ} {c : Nat} :
    YieldsAfter c (if seen.contains s then do
        misfit (.duplicateField s)
        let x ← r
        return x :: (← q)
      else do
        let x ← r
        return x :: (← q)) xs ↔
      s ∉ seen ∧ ∃ x ys c₁ c₂, YieldsAfter c₁ r x ∧ YieldsAfter c₂ q ys ∧ c = c₁ + c₂ ∧
        x :: ys = xs := by
  by_cases hs : s ∈ seen
  · rw [if_pos (by simpa using hs)]
    exact ⟨fun h => (YieldsAfter.not_throw _ h).elim, fun h => absurd hs h.1⟩
  · rw [if_neg (by simpa using hs), hr.yieldsAfter_bind_iff]
    constructor
    · rintro ⟨x, c₁, c₂, hx, hrest, rfl⟩
      obtain ⟨ys, hys, rfl⟩ := hq.yieldsAfter_map_iff.mp hrest
      exact ⟨hs, x, ys, c₁, c₂, hx, hys, rfl, rfl⟩
    · rintro ⟨-, x, ys, c₁, c₂, hx, hys, rfl, rfl⟩
      exact ⟨x, c₁, c₂, hx, hys.map (x :: ·), rfl⟩

/-- **The fields that are read are those that the entries give.** -/
theorem yieldsAfter_fields_iff (hknown : AgreeEverywhere known) (hname : ReadsNamed known name)
    {seen : List String} {es : List (Node × Node)} {xs : List φ} {c : Nat} :
    YieldsAfter c (fields as (known as) [] seen es) xs ↔
      Costs (FieldCost known) (es.map (Entry.of as)) c ∧
        Gathers (GivesField known) name (es.map (Entry.of as)) xs ∧
        ∀ x ∈ xs, name x ∉ seen := by
  induction es generalizing seen xs c with
  | nil =>
    constructor
    · intro h
      obtain ⟨rfl, rfl⟩ := YieldsAfter.pure_iff.mp h
      exact ⟨.nil, .nil, nofun⟩
    · rintro ⟨hc, h, -⟩
      cases hc
      cases h
      exact YieldsAfter.pure_iff.mpr ⟨rfl, rfl⟩
  | cons e es ih =>
    obtain ⟨k, v⟩ := e
    have hself (seen : List String) : Agree (as = []) (fields as (known as) [] seen es) _ :=
      agree_fields (hknown as as) [] seen (Same.refl_entries as es)
    rw [fields, (agree_text .field [] (.refl as k)).yieldsAfter_bind_iff]
    constructor
    · rintro ⟨s, c₁, c₂, hs, hrest, rfl⟩
      cases hl : (known as).lookup s with
      | none =>
        simp only [hl] at hrest
        obtain ⟨hbroken, hrest⟩ := yieldsAfter_ignore_bind_iff.mp hrest
        obtain ⟨hcosts, hgathers, hnew⟩ := ih.mp hrest
        have hgives : FieldOf known (Entry.of as (k, v)) none c₁ :=
          ⟨as, _, rfl, .unknown hs hl hbroken⟩
        exact ⟨.cons ⟨_, hgives⟩ hcosts, .skip ⟨_, hgives⟩ hgathers, hnew⟩
      | some read =>
        simp only [hl] at hrest
        obtain ⟨hs', x, ys, c₃, c₄, hx, hys, rfl, rfl⟩ :=
          (yieldsAfter_take_iff (hknown.self hl _ v) (hself _)).mp hrest
        obtain ⟨hcosts, hgathers, hnew⟩ := ih.mp hys
        obtain rfl := hname hl hx
        have hgives : FieldOf known (Entry.of as (k, v)) (some x) (c₁ + c₃) :=
          ⟨as, _, rfl, .known hs hl hx⟩
        rw [← Nat.add_assoc]
        refine ⟨.cons ⟨_, hgives⟩ hcosts, .take ⟨_, hgives⟩ (fun y hy h => ?_) hgathers, ?_⟩
        · exact hnew y hy (h ▸ List.mem_cons_self)
        · exact List.forall_mem_cons.mpr ⟨hs', fun y hy h => hnew y hy (List.mem_cons_of_mem _ h)⟩
    · rintro ⟨hcosts, hgathers, hnew⟩
      cases hcosts with
      | cons hcost hcosts =>
        obtain ⟨o, hcost⟩ := hcost
        cases hgathers with
        | skip h h' =>
          obtain ⟨c', h⟩ := h
          obtain ⟨rfl, rfl⟩ := hcost.unique hknown h
          cases (fieldOf_of_iff hknown).mp h with
          | unknown hs hl hbroken =>
            refine ⟨_, _, _, hs, ?_, rfl⟩
            simp only [hl]
            exact yieldsAfter_ignore_bind_iff.mpr ⟨hbroken, ih.mpr ⟨hcosts, h', hnew⟩⟩
        | take h hdistinct h' =>
          obtain ⟨c', h⟩ := h
          obtain ⟨rfl, rfl⟩ := hcost.unique hknown h
          cases (fieldOf_of_iff hknown).mp h with
          | known hs hl hx =>
            obtain ⟨hfirst, hnew⟩ := List.forall_mem_cons.mp hnew
            obtain rfl := hname hl hx
            rw [Nat.add_assoc]
            refine ⟨_, _, _, hs, ?_, rfl⟩
            simp only [hl]
            refine (yieldsAfter_take_iff (hknown.self hl _ v) (hself _)).mpr
              ⟨hfirst, _, _, _, _, hx, ih.mpr ⟨hcosts, h', fun y hy hmem => ?_⟩, rfl, rfl⟩
            rcases List.mem_cons.mp hmem with hy' | hy'
            · exact hdistinct y hy hy'
            · exact hnew y hy hy'

end Decode.Reading

namespace Decode.Reading

/-- Whatever the reader finds in the document, the aliases on the way there may be followed. -/
def AliasesFit {α : Type} (read : List (Nat × Node) → Place → Node → Reading α) (t : String) :
    Prop :=
  ∀ {c x}, YieldsAfter c (read (Document.load t).anchors [] (Document.load t).root) x →
    c ≤ (Document.load t).aliasLimit

def FollowsWithin (cost : Entry → Nat → Prop) (es : List Entry) : Prop :=
  ∃ c, Costs cost es c ∧ c ≤ Entry.rootSize es * 100

theorem FollowsWithin.perm {cost : Entry → Nat → Prop} {es es' : List Entry} (hp : es.Perm es')
    (h : FollowsWithin cost es) : FollowsWithin cost es' := by
  obtain ⟨c, hc, hle⟩ := h
  exact ⟨c, hc.perm hp, Entry.rootSize_perm hp ▸ hle⟩

/-- With each text under a key that is a text, more aliases may be followed. -/
theorem FollowsWithin.cons {cost : Entry → Nat → Prop} {u : Entry} {s : String} {c : Nat}
    (hkey : u.HasKey s) (htext : u.HasText) (hc : cost u c) (hle : c ≤ 2) {es : List Entry}
    (h : FollowsWithin cost es) : FollowsWithin cost (u :: es) := by
  obtain ⟨d, hd, hroom⟩ := h
  obtain ⟨as, ⟨k, v⟩, rfl⟩ := u.exists_of
  obtain ⟨s', hvalue⟩ := htext
  obtain ⟨hksize, hkbroken⟩ := size_of_isText hkey
  obtain ⟨hvsize, hvbroken⟩ := size_of_isText hvalue
  refine ⟨c + d, .cons hc hd, ?_⟩
  rw [Entry.rootSize_cons, Entry.size_of, hksize, hvsize]
  · omega
  · rw [Entry.isBroken_of, hkbroken, hvbroken]
    rfl

section Record

variable {α φ : Type} {known : List (Nat × Node) → Fields φ} {name : φ → String}
  {make : List φ → α} {expected : Expected} {tag : Option String} {t : String} {es : List Entry}

theorem yieldsAfter_root_iff (hknown : AgreeEverywhere known) (hname : ReadsNamed known name)
    (h : RootEntries tag t es) {v : α} {c : Nat} :
    YieldsAfter c (make <$> record (Document.load t).anchors expected
        (known (Document.load t).anchors) [] (Document.load t).root) v ↔
      Costs (FieldCost known) es c ∧ ∃ xs, Gathers (GivesField known) name es xs ∧ make xs = v := by
  obtain ⟨anchor, ns, hroot, rfl⟩ := h.root
  rw [hroot]
  generalize (Document.load t).anchors = as
  have hself : Agree (as = []) (record as expected (known as) [] (.mapping ⟨anchor, tag⟩ ns)) _ :=
    agree_record (hknown as as) expected [] (.refl as _)
  have hfields : record as expected (known as) [] (.mapping ⟨anchor, tag⟩ ns)
      = within [] (fields as (known as) [] [] ns) := rfl
  rw [hself.yieldsAfter_map_iff, hfields]
  simp only [YieldsAfter.within_iff, yieldsAfter_fields_iff hknown hname, List.not_mem_nil,
    not_false_eq_true, implies_true, and_true]
  exact ⟨fun ⟨xs, ⟨hc, hxs⟩, hv⟩ => ⟨hc, xs, hxs, hv⟩, fun ⟨hc, xs, hxs, hv⟩ => ⟨xs, ⟨hc, hxs⟩, hv⟩⟩

/-- What is read from a text is made of the fields that the entries give. -/
theorem readYaml_record_iff (hknown : AgreeEverywhere known) (hname : ReadsNamed known name)
    (h : RootEntries tag t es) {v : α} :
    readYaml (fun anchors place n => make <$> record anchors expected (known anchors) place n) t
        = .ok v ↔
      FollowsWithin (FieldCost known) es ∧
        ∃ xs, Gathers (GivesField known) name es xs ∧ make xs = v := by
  have hself := (agree_record (hknown _ _) expected [] (.refl (Document.load t).anchors
    (Document.load t).root)).map make
  rw [readYaml_eq_ok_iff hself h.complete]
  simp only [yieldsAfter_root_iff hknown hname h, h.aliasLimit_eq]
  exact ⟨fun ⟨c, hle, hc, hv⟩ => ⟨⟨c, hc, hle⟩, hv⟩, fun ⟨⟨c, hc, hle⟩, hv⟩ => ⟨c, hle, hc, hv⟩⟩

theorem exists_fieldCosts {xs : List φ} (hxs : Gathers (GivesField known) name es xs) :
    ∃ c, Costs (FieldCost known) es c := by
  refine exists_costs fun e he => ?_
  obtain ⟨o, ⟨c, hc⟩, -⟩ := hxs.gives_of_mem he
  exact ⟨c, o, hc⟩

/-- A key that is the name of a field gives that field and no other. -/
theorem GivesField.of_hasKey (hname : ReadsNamed known name)
    (hkeys : ∀ as s, s ∈ (known as).map (·.1) ↔ ∃ x, name x = s) {e : Entry} {s : String}
    (hkey : e.HasKey s) (hs : ∃ x, name x = s) (o : Option φ) (h : GivesField known e o) :
    ∃ x, o = some x ∧ name x = s := by
  obtain ⟨_, as, ⟨k, v⟩, rfl, h⟩ := h
  obtain ⟨_, -, hread⟩ := exists_yieldsAfter_text hkey .field []
  cases h with
  | unknown hkey' hl _ =>
    obtain rfl := (hkey'.unique hread).2
    exact absurd ((hkeys as _).mpr hs) (lookup_eq_none_iff.mp hl)
  | known hkey' hl hx =>
    obtain rfl := (hkey'.unique hread).2
    exact ⟨_, rfl, hname hl hx⟩

/-- A text under a key that is no field's name gives nothing, and follows no more aliases than
there is room for. -/
theorem GivesField.of_unknown
    (hkeys : ∀ as s, s ∈ (known as).map (·.1) ↔ ∃ x, name x = s) {e : Entry} {s : String}
    (hkey : e.HasKey s) (htext : e.HasText) (hs : ¬∃ x, name x = s) :
    GivesField known e none ∧ ∀ {us}, FollowsWithin (FieldCost known) us →
      FollowsWithin (FieldCost known) (e :: us) := by
  obtain ⟨as, ⟨k, v⟩, rfl⟩ := e.exists_of
  have hl : (known as).lookup s = none := lookup_eq_none_iff.mpr fun h => hs ((hkeys as s).mp h)
  obtain ⟨c, hle, hread⟩ := exists_yieldsAfter_text hkey .field []
  obtain ⟨_, hvalue⟩ := id htext
  have hgives : FieldOf known (Entry.of as (k, v)) none c :=
    ⟨as, _, rfl, .unknown hread hl (size_of_isText hvalue).2⟩
  exact ⟨⟨c, hgives⟩, fun hus => hus.cons hkey htext ⟨none, hgives⟩ (hle.trans (by decide))⟩

/-- **A YAML record is read from its entries in any order.** -/
theorem unordered_record {decode : String → Except Failure α} {set : α → φ → α} {empty : α}
    {all : α → List φ} {read : List (Nat × Node) → Place → Node → Reading α}
    (hdecode : ∀ {t v}, decode t = .ok v ↔ readYaml read t = .ok v)
    (hread : read = fun anchors place n =>
      (List.foldl set empty ·) <$> record anchors expected (known anchors) place n)
    (hknown : AgreeEverywhere known) (hname : ReadsNamed known name)
    (hkeys : ∀ as s, s ∈ (known as).map (·.1) ↔ ∃ x, name x = s)
    (hset : SetsFields set name) (hall : ∀ (v : α), ∀ x ∈ all v, set v x = v)
    (tag : Option String) :
    Unordered decode (RootEntries tag) Entry.HasKey Entry.HasText (fun _ s => ∃ x, name x = s) ∧
      Omits decode (RootEntries tag) (AliasesFit read) Entry.HasKey all name empty := by
  subst hread
  have hiff {t : String} {es : List Entry} {v : α} (h : RootEntries tag t es) :
      decode t = .ok v ↔ FollowsWithin (FieldCost known) es ∧
        ∃ xs, Gathers (GivesField known) name es xs ∧ xs.foldl set empty = v := by
    rw [hdecode, readYaml_record_iff hknown hname h]
  constructor
  · refine Unordered.of_gathers name (fun _ => GivesField known)
      (fun v xs => xs.foldl set empty = v) hiff ?_ .perm ?_ ?_
    · intro v xs ys hp hnames hv
      rw [← hset.foldl_perm hp hnames, hv]
    · intro v es xs u s _ _ htext hkey hs
      exact GivesField.of_unknown hkeys hkey htext hs
    · intro v es e s hs _ hkey
      exact GivesField.of_hasKey hname hkeys hkey hs
  · refine Omits.of_gathers hset hall hiff ?_ fun hkey =>
      GivesField.of_hasKey hname hkeys hkey ⟨_, rfl⟩
    intro t es xs h hroom hxs
    obtain ⟨c, hc⟩ := exists_fieldCosts hxs
    refine ⟨c, hc, ?_⟩
    rw [← h.aliasLimit_eq]
    exact hroom ((yieldsAfter_root_iff hknown hname h).mpr ⟨hc, xs, hxs, rfl⟩)

end Record

end Decode.Reading

end ImageRecipe
