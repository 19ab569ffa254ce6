import ImageRecipe.Failure
import Mathlib.Data.List.Nodup
import Mathlib.Data.List.Perm.Basic

/-!
# Gathering the fields of a record

What a record is read from is a list of entries, each of which gives one of
its fields or none.  `Gathers` says which fields a list gives in all, when no
two of them have one name; and then the order of the entries is as good as any
other.  This file is about such lists only, and about what is made of the
fields; `Unordered` says what follows for a text that is read.
-/

namespace ImageRecipe.Decode

/-! ### Fields from entries -/

section Gathers

variable {ε φ : Type} {gives : ε → Option φ → Prop} {name : φ → String}

/-- The entries give these fields, in order, and no two fields of one name.  An entry may give
none. -/
inductive Gathers (gives : ε → Option φ → Prop) (name : φ → String) : List ε → List φ → Prop
  | nil : Gathers gives name [] []
  | skip {e : ε} {es : List ε} {xs : List φ} (h : gives e none) (hes : Gathers gives name es xs) :
      Gathers gives name (e :: es) xs
  | take {e : ε} {x : φ} {es : List ε} {xs : List φ} (h : gives e (some x))
      (hnew : ∀ y ∈ xs, name y ≠ name x) (hes : Gathers gives name es xs) :
      Gathers gives name (e :: es) (x :: xs)

namespace Gathers

variable {e e' : ε} {es es' : List ε} {xs : List φ}

/-- **In another order the entries give the same fields**, in another order. -/
theorem perm (hp : es.Perm es') (h : Gathers gives name es xs) :
    ∃ xs', xs'.Perm xs ∧ Gathers gives name es' xs' := by
  induction hp generalizing xs with
  | nil => exact ⟨xs, .rfl, h⟩
  | cons e _ ih =>
    cases h with
    | skip he hes =>
      obtain ⟨xs', hxs, hes'⟩ := ih hes
      exact ⟨xs', hxs, .skip he hes'⟩
    | @take _ x _ xs he hnew hes =>
      obtain ⟨xs', hxs, hes'⟩ := ih hes
      exact ⟨x :: xs', hxs.cons x, .take he (fun y hy => hnew y (hxs.subset hy)) hes'⟩
  | swap e f es =>
    cases h with
    | skip hf hes =>
      cases hes with
      | skip he hes => exact ⟨xs, .rfl, .skip he (.skip hf hes)⟩
      | take he hnew hes => exact ⟨_, .rfl, .take he hnew (.skip hf hes)⟩
    | take hf hnew hes =>
      cases hes with
      | skip he hes => exact ⟨_, .rfl, .skip he (.take hf hnew hes)⟩
      | @take _ x _ xs he hnew' hes =>
        obtain ⟨hne, hnew⟩ := List.forall_mem_cons.mp hnew
        exact ⟨_, .swap _ _ _, .take he (List.forall_mem_cons.mpr ⟨Ne.symm hne, hnew'⟩)
          (.take hf hnew hes)⟩
  | trans _ _ ih₁ ih₂ =>
    obtain ⟨xs₁, hxs₁, h₁⟩ := ih₁ h
    obtain ⟨xs₂, hxs₂, h₂⟩ := ih₂ h₁
    exact ⟨xs₂, hxs₂.trans hxs₁, h₂⟩

theorem nodup (h : Gathers gives name es xs) : (xs.map name).Nodup := by
  induction h with
  | nil => exact List.nodup_nil
  | skip _ _ ih => exact ih
  | take _ hnew _ ih =>
    refine List.nodup_cons.mpr ⟨fun hmem => ?_, ih⟩
    obtain ⟨y, hy, hname⟩ := List.mem_map.mp hmem
    exact hnew y hy hname

/-- Each field is given by some entry. -/
theorem exists_of_mem (h : Gathers gives name es xs) {x : φ} (hx : x ∈ xs) :
    ∃ e ∈ es, gives e (some x) := by
  induction h with
  | nil => cases hx
  | skip _ _ ih =>
    obtain ⟨e, he, hgives⟩ := ih hx
    exact ⟨e, List.mem_cons_of_mem _ he, hgives⟩
  | take h _ _ ih =>
    rcases List.mem_cons.mp hx with rfl | hx
    · exact ⟨_, List.mem_cons_self, h⟩
    · obtain ⟨e, he, hgives⟩ := ih hx
      exact ⟨e, List.mem_cons_of_mem _ he, hgives⟩

/-- Each entry gives nothing, or one of the fields. -/
theorem gives_of_mem (h : Gathers gives name es xs) (he : e ∈ es) :
    ∃ o, gives e o ∧ ∀ x, o = some x → x ∈ xs := by
  induction h with
  | nil => cases he
  | skip h _ ih =>
    rcases List.mem_cons.mp he with rfl | he
    · exact ⟨none, h, nofun⟩
    · exact ih he
  | @take _ x _ xs h _ _ ih =>
    rcases List.mem_cons.mp he with rfl | he
    · exact ⟨some x, h, fun y hy => Option.some.inj hy ▸ List.mem_cons_self⟩
    · obtain ⟨o, ho, hxs⟩ := ih he
      exact ⟨o, ho, fun y hy => List.mem_cons_of_mem _ (hxs y hy)⟩

/-- **Two entries that can only give a field of one name** are not gathered from. -/
theorem not_twice {s : String} (h : Gathers gives name (e' :: es) xs) (he : e ∈ es)
    (hgives : ∀ o, gives e o → ∃ x, o = some x ∧ name x = s)
    (hgives' : ∀ o, gives e' o → ∃ x, o = some x ∧ name x = s) : False := by
  cases h with
  | skip h _ =>
    obtain ⟨x, hx, -⟩ := hgives' _ h
    cases hx
  | take h hnew hes =>
    obtain ⟨x, hx, hname⟩ := hgives' _ h
    obtain ⟨o, ho, hmem⟩ := hes.gives_of_mem he
    obtain ⟨y, rfl, hname'⟩ := hgives o ho
    obtain rfl := Option.some.inj hx
    exact hnew y (hmem y rfl) (hname'.trans hname.symm)

end Gathers

end Gathers

/-! ### Costs of entries -/

section Costs

variable {ε : Type} {cost : ε → Nat → Prop} {es es' : List ε} {c : Nat}

/-- What the entries cost in all, when each has a cost. -/
inductive Costs (cost : ε → Nat → Prop) : List ε → Nat → Prop
  | nil : Costs cost [] 0
  | cons {e : ε} {es : List ε} {c d : Nat} (h : cost e c) (hes : Costs cost es d) :
      Costs cost (e :: es) (c + d)

theorem Costs.perm (hp : es.Perm es') (h : Costs cost es c) : Costs cost es' c := by
  induction hp generalizing c with
  | nil => exact h
  | cons e _ ih =>
    cases h with
    | cons he hes => exact .cons he (ih hes)
  | swap e f es =>
    cases h with
    | cons hf hes =>
      cases hes with
      | cons he hes =>
        rw [Nat.add_left_comm]
        exact .cons he (.cons hf hes)
  | trans _ _ ih₁ ih₂ => exact ih₂ (ih₁ h)

theorem exists_costs (h : ∀ e ∈ es, ∃ c, cost e c) : ∃ c, Costs cost es c := by
  induction es with
  | nil => exact ⟨0, .nil⟩
  | cons e es ih =>
    obtain ⟨⟨c, hc⟩, hes⟩ := List.forall_mem_cons.mp h
    obtain ⟨d, hd⟩ := ih hes
    exact ⟨c + d, .cons hc hd⟩

end Costs

/-! ### Records from fields -/

section Record

variable {α φ : Type} {set : α → φ → α} {name : φ → String}

/-- Setting the fields of a record: fields of different names do not disturb each other, and of
one name the last one counts, whose content can be told from the record. -/
structure SetsFields (set : α → φ → α) (name : φ → String) : Prop where
  comm : ∀ (a : α) {x y : φ}, name x ≠ name y → set (set a x) y = set (set a y) x
  last : ∀ (a : α) {x y : φ}, name x = name y → set (set a x) y = set a y
  inj : ∀ (a : α) {x y : φ}, name x = name y → set a x = set a y → x = y

namespace SetsFields

variable {x y : φ} {xs ys : List φ}

theorem foldl_perm (h : SetsFields set name) (hp : xs.Perm ys) (hnames : (xs.map name).Nodup)
    (a : α) : xs.foldl set a = ys.foldl set a := by
  refine hp.foldl_eq' (fun x hx y hy a => ?_) a
  by_cases hxy : x = y
  · rw [hxy]
  · exact h.comm a fun hname => hxy (List.inj_on_of_nodup_map hnames hx hy hname)

/-- A field whose name does not come again might as well be set at the end. -/
theorem foldl_set (h : SetsFields set name) (hnew : ∀ y ∈ xs, name y ≠ name x) (a : α) :
    xs.foldl set (set a x) = set (xs.foldl set a) x := by
  induction xs generalizing a with
  | nil => rfl
  | cons y xs ih =>
    obtain ⟨hy, hnew⟩ := List.forall_mem_cons.mp hnew
    rw [List.foldl_cons, List.foldl_cons, h.comm a (Ne.symm hy), ih hnew]

/-- **A field is as good as absent if its content in the end is the one before.** -/
theorem foldl_default (h : SetsFields set name) {a : α} (hnew : ∀ y ∈ xs, name y ≠ name x)
    (hname : name y = name x) (hend : set ((x :: xs).foldl set a) y = (x :: xs).foldl set a)
    (hstart : set a y = a) : xs.foldl set a = (x :: xs).foldl set a := by
  rw [List.foldl_cons, h.foldl_set hnew, h.last _ hname.symm] at hend
  have hxy : y = x := h.inj _ hname hend
  rw [List.foldl_cons, ← hxy, hstart]

end SetsFields

end Record

/-! ### What is read from a text -/

section Unordered

variable {α ε φ : Type}

/-- The value that is read from a text does not depend on the order of the entries in it.  Here
`Known es s` says that `s` is among the names that count for a text with these entries. -/
structure Unordered (decode : String → Except Failure α) (Holds : String → List ε → Prop)
    (Key : ε → String → Prop) (IsText : ε → Prop) (Known : List ε → String → Prop) : Prop where
  /-- The entries may stand in another order, and others with texts under names that are not known
  may stand anywhere among them. -/
  reread : ∀ {t t' : String} {es es' us : List ε} {v : α}, Holds t es → Holds t' es' →
    es'.Perm (us ++ es) → (∀ u ∈ us, IsText u ∧ ∃ s, Key u s ∧ ¬Known es s) →
    decode t = .ok v → decode t' = .ok v
  /-- A second entry under a known name is refused, wherever it stands. -/
  repeated : ∀ {t' : String} {e e' : ε} {es es' : List ε} {s : String}, Holds t' es' →
    es'.Perm (e' :: es) → e ∈ es → Key e s → Key e' s → Known es s →
    ∃ f, decode t' = .error f

/-- Entries may be left out of a text, where `fields` lists what a record is made of.  What is left
has to be one of the texts that have `Room` for what is read from them. -/
structure Omits (decode : String → Except Failure α) (Holds : String → List ε → Prop)
    (Room : String → Prop) (Key : ε → String → Prop) (fields : α → List φ) (name : φ → String)
    (empty : α) : Prop where
  /-- An entry may be left out when the field that the record has under its key is the one that
  the empty record has. -/
  omitted : ∀ {t t' : String} {e : ε} {es es' : List ε} {v : α} {x : φ}, Holds t es →
    Holds t' es' → Room t' → es.Perm (e :: es') → Key e (name x) → x ∈ fields v →
    x ∈ fields empty → decode t = .ok v → decode t' = .ok v

variable {decode : String → Except Failure α} {Holds : String → List ε → Prop}
  {Room : String → Prop} {Key : ε → String → Prop} {IsText : ε → Prop}
  {Known : List ε → String → Prop} {Fits : List ε → Prop}

/-- A value that is made of the fields gathered, in whatever order, is read from entries in
whatever order.  Which fields the entries give may depend on the value.  Entries can be read that
are not too much, which `Fits` says of them. -/
theorem Unordered.of_gathers (name : φ → String) (gives : α → ε → Option φ → Prop)
    (makes : α → List φ → Prop)
    (hdecode : ∀ {t es v}, Holds t es → (decode t = .ok v ↔
      Fits es ∧ ∃ xs, Gathers (gives v) name es xs ∧ makes v xs))
    (hperm : ∀ {v xs ys}, xs.Perm ys → (xs.map name).Nodup → makes v xs → makes v ys)
    (hfits : ∀ {es es'}, es.Perm es' → Fits es → Fits es')
    (hunknown : ∀ {v es xs u s}, Gathers (gives v) name es xs → makes v xs →
      IsText u → Key u s → ¬Known es s → gives v u none ∧ ∀ {us}, Fits us → Fits (u :: us))
    (hknown : ∀ {v es e s}, Known es s → (∀ c ∈ es, ∃ o, gives v c o) → Key e s →
      ∀ o, gives v e o → ∃ x, o = some x ∧ name x = s) :
    Unordered decode Holds Key IsText Known where
  reread {t t' es es' us v} ht ht' hp hus hread := by
    obtain ⟨hes, xs, hxs, hv⟩ := (hdecode ht).mp hread
    have hall : Fits (us ++ es) ∧ Gathers (gives v) name (us ++ es) xs := by
      clear hp
      induction us with
      | nil => exact ⟨hes, hxs⟩
      | cons u us ih =>
        obtain ⟨⟨htext, s, hkey, hnew⟩, hus⟩ := List.forall_mem_cons.mp hus
        obtain ⟨hgives, hroom⟩ := hunknown hxs hv htext hkey hnew
        obtain ⟨hfit, hgathers⟩ := ih hus
        exact ⟨hroom hfit, .skip hgives hgathers⟩
    obtain ⟨xs', hp', hxs'⟩ := hall.2.perm hp.symm
    exact (hdecode ht').mpr
      ⟨hfits hp.symm hall.1, xs', hxs', hperm hp'.symm hxs.nodup hv⟩
  repeated {t' e e' es es' s} ht' hp he hkey hkey' hs := by
    cases hread : decode t' with
    | error f => exact ⟨f, rfl⟩
    | ok v =>
      obtain ⟨-, xs, hxs, -⟩ := (hdecode ht').mp hread
      obtain ⟨xs', -, hxs'⟩ := hxs.perm hp
      have hgiven : ∀ c ∈ es, ∃ o, gives v c o := by
        intro c hc
        obtain ⟨o, ho, -⟩ := hxs'.gives_of_mem (List.mem_cons_of_mem e' hc)
        exact ⟨o, ho⟩
      exact (hxs'.not_twice he (hknown hs hgiven hkey) (hknown hs hgiven hkey')).elim

/-- What a record with one field after the other set is read from may leave out a field that is
set to what it is. -/
theorem Omits.of_gathers {name : φ → String} {set : α → φ → α} {fields : α → List φ} {empty : α}
    {gives : ε → Option φ → Prop} (hset : SetsFields set name)
    (hfields : ∀ (v : α), ∀ x ∈ fields v, set v x = v)
    (hdecode : ∀ {t es v}, Holds t es → (decode t = .ok v ↔
      Fits es ∧ ∃ xs, Gathers gives name es xs ∧ xs.foldl set empty = v))
    (hroom : ∀ {t es xs}, Holds t es → Room t → Gathers gives name es xs → Fits es)
    (hknown : ∀ {e y}, Key e (name y) → ∀ o, gives e o → ∃ x, o = some x ∧ name x = name y) :
    Omits decode Holds Room Key fields name empty := by
  refine ⟨fun {t t' e es es' v y} ht ht' hleft hp hkey hend hstart hread => ?_⟩
  obtain ⟨-, xs, hxs, hv⟩ := (hdecode ht).mp hread
  obtain ⟨xs', hp', hxs'⟩ := hxs.perm hp
  rw [hset.foldl_perm hp'.symm hxs.nodup] at hv
  refine (hdecode ht').mpr ?_
  cases hxs' with
  | skip h _ =>
    obtain ⟨x, hx, -⟩ := hknown hkey _ h
    cases hx
  | @take _ z _ ys h hnew hes =>
    obtain ⟨x, hx, hname⟩ := hknown hkey _ h
    obtain rfl := Option.some.inj hx
    subst hv
    exact ⟨hroom ht' hleft hes, ys, hes,
      hset.foldl_default hnew hname.symm (hfields _ y hend) (hfields _ y hstart)⟩

end Unordered

end ImageRecipe.Decode
