import ImageRecipe.Proofs.Decode.Reading
import ImageRecipe.Proofs.Yaml.Unfolding

/-!
# Readers and aliases

All that a reader sees of a node is what the node unfolds to.  So nodes that are
the same are read alike, in whatever documents they stand, and how many aliases
are followed on the way does not depend on how many more might be.  `Agree` says
both of two readers, and it passes from the readers of parts to those of wholes,
so there is one lemma for each reader here.
-/

namespace ImageRecipe.Decode

open Yaml

/-- The reader finds `x` and follows `c` aliases on the way, however many more it might follow. -/
def YieldsAfter {α : Type} (c : Nat) (r : Reading α) (x : α) : Prop :=
  ∀ k, r (c + k) = .ok (x, k)

/-- Both readers do the same, and follow a definite number of aliases, if they find something.
If `free` holds, they follow none. -/
structure Agree {α : Type} (free : Prop) (r r' : Reading α) : Prop where
  eq : r = r'
  after : ∀ {k k' : Nat} {x : α}, r k = .ok (x, k') →
    ∃ c, k = c + k' ∧ YieldsAfter c r x ∧ (free → c = 0)

namespace Agree

variable {α β : Type} {free : Prop} {r r' : Reading α}

theorem pure (x : α) : Agree free (Pure.pure x) (Pure.pure x) where
  eq := rfl
  after {k k' y} h := by
    obtain ⟨rfl, rfl⟩ := Prod.mk.inj (Except.ok.inj h)
    exact ⟨0, (Nat.zero_add k).symm, fun j => by rw [Nat.zero_add]; rfl, fun _ => rfl⟩

theorem throw (m : Misread) :
    Agree (α := α) free (MonadExcept.throw m) (MonadExcept.throw m) where
  eq := rfl
  after h := by cases h

theorem lift (e : Except Misread α) : Agree free (liftM e : Reading α) (liftM e) := by
  cases e with
  | error m => exact .throw m
  | ok x => exact .pure x

theorem bind_apply (r : Reading α) (f : α → Reading β) (k : Nat) :
    (r >>= f) k = (r k >>= fun p => f p.1 p.2) :=
  rfl

theorem bind {f f' : α → Reading β} (h : Agree free r r') (hf : ∀ x, Agree free (f x) (f' x)) :
    Agree free (r >>= f) (r' >>= f') where
  eq := by rw [h.eq, funext fun x => (hf x).eq]
  after {k k' y} hy := by
    rw [bind_apply] at hy
    cases hr : r k with
    | error m =>
      rw [hr] at hy
      cases hy
    | ok p =>
      obtain ⟨x, j⟩ := p
      rw [hr] at hy
      obtain ⟨c, rfl, hx, hfree⟩ := h.after hr
      obtain ⟨d, rfl, hy, hfree'⟩ := (hf x).after hy
      refine ⟨c + d, (Nat.add_assoc c d k').symm, fun i => ?_, fun h => ?_⟩
      · rw [bind_apply, Nat.add_assoc, hx]
        exact hy i
      · rw [hfree h, hfree' h]

theorem map (f : α → β) (h : Agree free r r') : Agree free (f <$> r) (f <$> r') :=
  h.bind fun x => pure (f x)

theorem within (place : Place) (h : Agree free r r') :
    Agree free (Reading.within place r) (Reading.within place r') where
  eq := by rw [h.eq]
  after {k k' x} hx := by
    have hr : r k = .ok (x, k') := by
      rw [Reading.within] at hx
      cases hr : r k with
      | error m =>
        rw [hr] at hx
        cases hx
      | ok p => rwa [hr] at hx
    obtain ⟨c, hk, hyields, hfree⟩ := h.after hr
    exact ⟨c, hk, fun j => by rw [Reading.within, hyields j]; rfl, hfree⟩

theorem ite {p : Prop} {_ : Decidable p} {s s' : Reading α} (h : p → Agree free r r')
    (h' : ¬p → Agree free s s') : Agree free (if p then r else s) (if p then r' else s') := by
  by_cases hp : p
  · rw [if_pos hp, if_pos hp]
    exact h hp
  · rw [if_neg hp, if_neg hp]
    exact h' hp

/-- A reader that agrees with itself agrees with one that is the same by definition. -/
theorem of_eq (h : r' = r) (hr : Agree free r r) : Agree free r r' := by
  rwa [h]

end Agree

/-! ### What is yielded -/

namespace YieldsAfter

variable {α β : Type} {free : Prop} {r : Reading α} {x y : α} {c d : Nat}

theorem of_yields (h : Yields r x) : YieldsAfter 0 r x :=
  fun k => (congrArg r (Nat.zero_add k)).trans (h k)

theorem zero_iff : YieldsAfter 0 r x ↔ Yields r x :=
  ⟨fun h k => (congrArg r (Nat.zero_add k)).symm.trans (h k), of_yields⟩

theorem unique (hx : YieldsAfter c r x) (hy : YieldsAfter d r y) : c = d ∧ x = y := by
  have h : (Except.ok (x, d) : Except Misread (α × Nat)) = .ok (y, c) := by
    rw [← hx d, Nat.add_comm, hy c]
  obtain ⟨rfl, rfl⟩ := Prod.mk.inj (Except.ok.inj h)
  exact ⟨rfl, rfl⟩

theorem bind {f : α → Reading β} {y : β} (hx : YieldsAfter c r x) (hy : YieldsAfter d (f x) y) :
    YieldsAfter (c + d) (r >>= f) y := by
  intro k
  rw [Agree.bind_apply, Nat.add_assoc, hx]
  exact hy k

theorem map (f : α → β) (h : YieldsAfter c r x) : YieldsAfter c (f <$> r) (f x) :=
  h.bind (f := fun x => Pure.pure (f x)) (.of_yields (Yields.pure (f x)))

theorem exists_of_map {f : α → β} {y : β} (h : YieldsAfter c (f <$> r) y) : ∃ x, y = f x := by
  have hmap : (f <$> r) c = (r c >>= fun p => Pure.pure (f p.1, p.2)) := rfl
  have h0 := hmap.symm.trans (h 0)
  cases hr : r c with
  | error m =>
    rw [hr] at h0
    cases h0
  | ok p =>
    rw [hr] at h0
    exact ⟨p.1, (congrArg Prod.fst (Except.ok.inj h0)).symm⟩

theorem pure_iff : YieldsAfter c (Pure.pure x) y ↔ c = 0 ∧ x = y := by
  constructor
  · intro h
    obtain ⟨hc, rfl⟩ := h.unique (.of_yields (Yields.pure x))
    exact ⟨hc, rfl⟩
  · rintro ⟨rfl, rfl⟩
    exact .of_yields (Yields.pure x)

theorem not_throw (m : Misread) : ¬YieldsAfter c (MonadExcept.throw m) x := by
  intro h
  cases h 0

theorem within_iff (place : Place) :
    YieldsAfter c (Reading.within place r) x ↔ YieldsAfter c r x := by
  refine forall_congr' fun k => ?_
  rw [Reading.within]
  cases r (c + k) <;> simp [Except.mapError]

theorem lift_iff {e : Except Misread α} :
    YieldsAfter c (liftM e : Reading α) x ↔ c = 0 ∧ e = .ok x := by
  cases e with
  | error m => exact iff_of_false (not_throw m) (by simp)
  | ok y =>
    rw [Except.ok.injEq]
    exact pure_iff

end YieldsAfter

namespace Agree

variable {α β : Type} {free : Prop} {r : Reading α}

/-- What is found in two parts is found in the first and then in the second. -/
theorem yieldsAfter_bind_iff (h : Agree free r r) {f : α → Reading β} {c : Nat} {y : β} :
    YieldsAfter c (r >>= f) y ↔
      ∃ x c₁ c₂, YieldsAfter c₁ r x ∧ YieldsAfter c₂ (f x) y ∧ c = c₁ + c₂ := by
  constructor
  swap
  · rintro ⟨x, c₁, c₂, hx, hy, rfl⟩
    exact hx.bind hy
  intro hy
  have h0 : (r >>= f) c = .ok (y, 0) := hy 0
  rw [bind_apply] at h0
  cases hr : r c with
  | error m =>
    rw [hr] at h0
    cases h0
  | ok p =>
    obtain ⟨x, j⟩ := p
    obtain ⟨d, rfl, hx, -⟩ := h.after hr
    refine ⟨x, d, j, hx, fun k => ?_, rfl⟩
    have hk := hy k
    rwa [bind_apply, Nat.add_assoc, hx] at hk

theorem yieldsAfter_map_iff (h : Agree free r r) {f : α → β} {c : Nat} {y : β} :
    YieldsAfter c (f <$> r) y ↔ ∃ x, YieldsAfter c r x ∧ f x = y := by
  have hmap : f <$> r = r >>= fun x => Pure.pure (f x) := rfl
  rw [hmap, h.yieldsAfter_bind_iff]
  constructor
  · rintro ⟨x, c₁, c₂, hx, hy, rfl⟩
    obtain ⟨rfl, hxy⟩ := YieldsAfter.pure_iff.mp hy
    exact ⟨x, hx, hxy⟩
  · rintro ⟨x, hx, rfl⟩
    exact ⟨x, c, 0, hx, YieldsAfter.pure_iff.mpr ⟨rfl, rfl⟩, rfl⟩

/-- A reader that follows no alias. -/
theorem yieldsAfter_iff (h : Agree free r r) (hfree : free) {c : Nat} {x : α} :
    YieldsAfter c r x ↔ c = 0 ∧ Yields r x := by
  constructor
  · intro hx
    obtain ⟨d, hd, -, hzero⟩ := h.after (hx 0)
    obtain rfl : c = 0 := hd.trans (hzero hfree)
    exact ⟨rfl, YieldsAfter.zero_iff.mp hx⟩
  · rintro ⟨rfl, hx⟩
    exact .of_yields hx

end Agree

namespace Yields

variable {α β : Type} {r : Reading α} {x y : α}

theorem unique (hx : Yields r x) (hy : Yields r y) : x = y :=
  ((YieldsAfter.of_yields hx).unique (.of_yields hy)).2

theorem pure_iff : Yields (Pure.pure x) y ↔ x = y :=
  ⟨(Yields.pure x).unique, fun h => h ▸ Yields.pure x⟩

theorem not_throw (m : Misread) : ¬Yields (MonadExcept.throw m) x :=
  fun h => YieldsAfter.not_throw m (.of_yields h)

theorem within_iff (place : Place) : Yields (Reading.within place r) x ↔ Yields r x := by
  rw [← YieldsAfter.zero_iff, YieldsAfter.within_iff, YieldsAfter.zero_iff]

theorem lift_iff {e : Except Misread α} : Yields (liftM e : Reading α) x ↔ e = .ok x := by
  rw [← YieldsAfter.zero_iff, YieldsAfter.lift_iff, eq_self_iff_true, true_and]

end Yields

/-- What a reader finds without an alias it finds in its first part and then in the second. -/
theorem Agree.yields_bind_iff {α β : Type} {free : Prop} {r : Reading α} {f : α → Reading β}
    {y : β} (h : Agree free r r) :
    Yields (r >>= f) y ↔ ∃ x, Yields r x ∧ Yields (f x) y := by
  rw [← YieldsAfter.zero_iff, h.yieldsAfter_bind_iff]
  constructor
  · rintro ⟨x, c₁, c₂, hx, hy, hc⟩
    obtain ⟨rfl, rfl⟩ := Nat.add_eq_zero_iff.mp hc.symm
    exact ⟨x, YieldsAfter.zero_iff.mp hx, YieldsAfter.zero_iff.mp hy⟩
  · rintro ⟨x, hx, hy⟩
    exact ⟨x, 0, 0, .of_yields hx, .of_yields hy, rfl⟩

theorem Agree.yields_map_iff {α β : Type} {free : Prop} {r : Reading α} {f : α → β} {y : β}
    (h : Agree free r r) : Yields (f <$> r) y ↔ ∃ x, Yields r x ∧ f x = y := by
  simp only [← YieldsAfter.zero_iff, h.yieldsAfter_map_iff]

namespace Reading

variable {as as' : List (Nat × Node)} {n n' : Node}

/-- Follows an alias, if it may follow one more, to where the reading goes on. -/
def hop {α : Type} (rest : Option (Reading α)) : Reading α
  | 0 => .error .malformed
  | k + 1 => rest.elim (.error .malformed) (· k)

theorem follow_alias_bind {α : Type} (as : List (Nat × Node)) (number : Nat)
    (f : Node → Reading α) :
    follow as (.alias number) >>= f = hop ((as.lookup number).map f) := by
  funext k
  cases k with
  | zero => rfl
  | succ k =>
    rw [Agree.bind_apply, follow, hop]
    cases as.lookup number <;> rfl

theorem agree_hop {α : Type} {free : Prop} {rest rest' : Option (Reading α)}
    (h : Option.Rel (Agree free) rest rest') (hfree : free → rest' = none) :
    Agree free (hop rest) (hop rest') := by
  cases h with
  | none =>
    refine ⟨rfl, fun {k k' x} hx => ?_⟩
    cases k <;> cases hx
  | @some r r' h =>
    refine ⟨by rw [h.eq], fun {k k' x} hx => ?_⟩
    cases k with
    | zero => cases hx
    | succ k =>
      obtain ⟨c, rfl, hyields, -⟩ := h.after hx
      refine ⟨c + 1, Nat.add_right_comm c k' 1, fun j => ?_, fun h => nomatch hfree h⟩
      rw [Nat.add_right_comm]
      exact hyields j

/-- **Following an alias** leads to nodes that are the same, or to none. -/
theorem agree_follow {α : Type} {f f' : Node → Reading α} (h : Same as as' n n')
    (hf : ∀ {m m'}, Same as as' m m' → Agree (as' = []) (f m) (f' m')) :
    Agree (as' = []) (follow as n >>= f) (follow as' n' >>= f') := by
  cases h.form with
  | broken | void | scalar | sequence _ | mapping _ => exact hf h
  | link hrefer =>
    rw [follow_alias_bind, follow_alias_bind]
    refine agree_hop ?_ ?_
    · generalize List.lookup _ as = o, List.lookup _ as' = o' at hrefer
      cases hrefer with
      | none => exact .none
      | some hm => exact .some (hf hm)
    · rintro rfl
      rfl

theorem agree_follow_self (as : List (Nat × Node)) (n : Node) :
    Agree (as = []) (follow as n) (follow as n) := by
  cases n with
  | «alias» number =>
    rw [← bind_pure (follow as (.alias number)), follow_alias_bind]
    refine agree_hop ?_ ?_
    · cases as.lookup number with
      | none => exact .none
      | some m => exact .some (.pure m)
    · rintro rfl
      rfl
  | _ => exact .pure _

/-! ### Scalars -/

theorem valuePlace_eq (place : Place) (h : Same as as' n n') :
    valuePlace place n = valuePlace place n' := by
  cases h.form <;> rfl

def AgreeOn {α : Type} (as as' : List (Nat × Node)) (read read' : Place → Node → Reading α) :
    Prop :=
  ∀ (place : Place) {n n' : Node}, Same as as' n n' →
    Agree (as' = []) (read place n) (read' place n')

theorem AgreeOn.map {α β : Type} {read read' : Place → Node → Reading α}
    (h : AgreeOn as as' read read') (f : α → β) :
    AgreeOn as as' (fun place n => f <$> read place n) fun place n => f <$> read' place n :=
  fun place _ _ hn => (h place hn).map f

theorem agree_text (expected : Expected) :
    AgreeOn as as' (text as expected) (text as' expected) := by
  intro place n n' h
  refine .within place (agree_follow h fun hm => ?_)
  cases hm.form with
  | scalar => exact .pure _
  | _ => exact .throw _

theorem agree_bool : AgreeOn as as' (bool as) (bool as') := by
  intro place n n' h
  refine .within place (agree_follow h fun hm => ?_)
  cases hm.form with
  | scalar =>
    refine .of_eq rfl ?_
    dsimp only
    split
    · exact .pure _
    · exact .throw _
  | _ => exact .throw _

theorem agree_port : AgreeOn as as' (port as) (port as') := by
  intro place n n' h
  refine .within place (agree_follow h fun hm => ?_)
  cases hm.form with
  | scalar =>
    refine .of_eq rfl ?_
    dsimp only
    split
    · exact .ite (fun _ => .pure _) fun _ => .throw _
    · exact .throw _
  | _ => exact .throw _

/-- **What may be absent** is read alike if what it is when it is there is. -/
theorem agree_optional {α : Type} {read read' : Place → Node → Reading α}
    (hread : AgreeOn as as' read read') :
    AgreeOn as as' (optional as read) (optional as' read') := by
  intro place n n' h
  refine agree_follow h fun hm => ?_
  have hrest (isNone : Bool) : Agree (as' = [])
      (if isNone then Pure.pure none else some <$> read place _)
      (if isNone then Pure.pure none else some <$> read' place _) :=
    .ite (fun _ => .pure none) fun _ => (hread place hm).map some
  cases hm.form with
  | broken => exact .throw _
  | void => exact .pure none
  | scalar =>
    refine .ite (fun _ => .bind (.pure false) hrest) fun _ => ?_
    dsimp only
    split
    · exact .bind (.pure _) hrest
    · exact .ite (fun _ => .bind (.pure false) hrest) fun _ =>
        .ite (fun _ => .bind (.pure true) hrest) fun _ => .bind (.throw _) hrest
  | sequence _ | mapping _ | link _ => exact (hread place hm).map some

/-! ### Collections -/

theorem agree_items {α : Type} {read read' : Place → Node → Reading α}
    (hread : AgreeOn as as' read read') (place : Place) (i : Nat) {ns ns' : List Node}
    (h : List.Forall₂ (Same as as') ns ns') :
    Agree (as' = []) (items read place i ns) (items read' place i ns') := by
  induction h generalizing i with
  | nil => exact .pure []
  | cons hn _ ih => exact .bind (hread _ hn) fun x => .bind (ih (i + 1)) fun xs => .pure (x :: xs)

theorem agree_list {α : Type} {read read' : Place → Node → Reading α}
    (hread : AgreeOn as as' read read') : AgreeOn as as' (list as read) (list as' read') := by
  intro place n n' h
  refine .within place (agree_follow h fun hm => ?_)
  cases hm.form with
  | sequence h => exact agree_items hread place 0 h
  | _ => exact .ite (fun _ => .pure []) fun _ => .throw _

theorem agree_texts : AgreeOn as as' (texts as) (texts as') :=
  agree_list (agree_text .string)

def AgreeFields {φ : Type} (as as' : List (Nat × Node)) : Fields φ → Fields φ → Prop :=
  List.Forall₂ fun f f' => f.1 = f'.1 ∧ AgreeOn as as' f.2 f'.2

/-- What a name is known for, in one list of fields and in the other. -/
theorem AgreeFields.lookup {φ : Type} {known known' : Fields φ}
    (h : AgreeFields as as' known known') (name : String) :
    Option.Rel (AgreeOn as as') (known.lookup name) (known'.lookup name) := by
  induction h with
  | nil => exact .none
  | @cons f f' known known' hf _ ih =>
    obtain ⟨hname, hread⟩ := hf
    rw [List.lookup_cons, List.lookup_cons, ← hname]
    cases name == f.1 with
    | true => exact .some hread
    | false => exact ih

theorem isBroken_eq (h : Same as as' n n') : n.isBroken = n'.isBroken := by
  rw [← (n.outline_unfoldBy fun _ => none).1, ← (n'.outline_unfoldBy fun _ => none).1]
  exact congrArg (fun u => u.outline.isBroken) (h 0)

theorem agree_fields {φ : Type} {known known' : Fields φ}
    (hknown : AgreeFields as as' known known') (place : Place) (seen : List String)
    {es es' : List (Node × Node)}
    (h : List.Forall₂ (fun e e' => Same as as' e.1 e'.1 ∧ Same as as' e.2 e'.2) es es') :
    Agree (as' = []) (fields as known place seen es) (fields as' known' place seen es') := by
  induction h generalizing seen with
  | nil => exact .pure []
  | @cons e e' es es' he hes ih =>
    obtain ⟨hk, hv⟩ := he
    refine .bind (agree_text .field place hk) fun name => ?_
    have hlookup := hknown.lookup name
    generalize known.lookup name = o, known'.lookup name = o' at hlookup
    cases hlookup with
    | none =>
      rw [ignore, ignore, isBroken_eq hv]
      exact .bind (.ite (fun _ => .throw _) fun _ => .pure ()) fun _ => ih seen
    | @some read read' hread =>
      have hrest : Agree (as' = [])
          (do
            let x ← read (valuePlace place e.1) e.2
            return x :: (← fields as known place (name :: seen) es))
          (do
            let x ← read' (valuePlace place e'.1) e'.2
            return x :: (← fields as' known' place (name :: seen) es')) := by
        rw [valuePlace_eq place hk]
        exact .bind (hread _ hv) fun x => .bind (ih (name :: seen)) fun xs => .pure (x :: xs)
      exact .ite (fun _ => .bind (.throw _) fun _ => hrest) fun _ => hrest

theorem agree_record {φ : Type} {known known' : Fields φ}
    (hknown : AgreeFields as as' known known') (expected : Expected) :
    AgreeOn as as' (record as expected known) (record as' expected known') := by
  intro place n n' h
  refine .within place (agree_follow h fun hm => ?_)
  cases hm.form with
  | mapping h => exact agree_fields hknown place [] h
  | _ => exact .ite (fun _ => .pure []) fun _ => .throw _

/-! ### Content and steps -/

theorem agree_scalarContent {free : Prop} (expected : Expected) (a a' : Option Nat)
    (tag : Option String) (style : Style) (t : String) :
    Agree free (scalarContent expected ⟨a, tag⟩ style t)
      (scalarContent expected ⟨a', tag⟩ style t) := by
  refine .of_eq rfl ?_
  rw [scalarContent]
  refine .ite (fun _ => .throw _) fun _ => ?_
  cases meaning ⟨a, tag⟩ style t with
  | error cause => exact .throw _
  | ok m =>
    cases m with
    | int i => exact .ite (fun _ => .throw _) fun _ => .pure _
    | null | bool _ | float _ | text => exact .pure _

theorem agree_contentEntries {key key' value value' : Place → Node → Reading Content}
    (hkey : AgreeOn as as' key key') (hvalue : AgreeOn as as' value value') (place : Place)
    {es es' : List (Node × Node)}
    (h : List.Forall₂ (fun e e' => Same as as' e.1 e'.1 ∧ Same as as' e.2 e'.2) es es') :
    Agree (as' = []) (contentEntries key value place es)
      (contentEntries key' value' place es') := by
  induction h with
  | nil => exact .pure []
  | cons he _ ih =>
    obtain ⟨hk, hv⟩ := he
    refine .bind (hkey place hk) fun c => .bind ?_ fun d => .bind ih fun rest =>
      .pure ((c, d) :: rest)
    rw [valuePlace_eq place hk]
    exact hvalue _ hv

theorem agree_content (expected : Expected) (room : Nat) :
    AgreeOn as as' (content as expected room) (content as' expected room) := by
  induction room generalizing expected with
  | zero =>
    intro place n n' h
    refine .within place (agree_follow h fun hm => ?_)
    cases hm.form with
    | scalar => exact agree_scalarContent expected _ _ _ _ _
    | _ => exact .throw _
  | succ room ih =>
    intro place n n' h
    refine .within place (agree_follow h fun hm => ?_)
    cases hm.form with
    | scalar => exact agree_scalarContent expected _ _ _ _ _
    | sequence h =>
      exact .ite (fun _ => .throw _) fun _ =>
        (agree_items (ih .anyValue) place 0 h).map Content.sequence
    | mapping h =>
      exact .ite (fun _ => .throw _) fun _ =>
        (agree_contentEntries (ih .anyValue) (ih .anyValue) place h).map Content.mapping
    | _ => exact .throw _

theorem agree_kind : AgreeOn as as' (kind as) (kind as') := fun place _ _ h =>
  .within place (.bind (agree_text .variant place h) fun _ => .lift _)

theorem agree_kindEntries (room : Nat) (place : Place) (found : Option StepKind)
    {es es' : List (Node × Node)}
    (h : List.Forall₂ (fun e e' => Same as as' e.1 e'.1 ∧ Same as as' e.2 e'.2) es es') :
    Agree (as' = []) (kindEntries as room place found es)
      (kindEntries as' room place found es') := by
  induction h generalizing found with
  | nil =>
    cases found with
    | none => exact .throw _
    | some kd => exact .pure (kd, [])
  | @cons e e' es es' he hes ih =>
    obtain ⟨hk, hv⟩ := he
    rw [kindEntries, kindEntries]
    refine .bind (agree_content .kindField room place hk) fun c => ?_
    rw [valuePlace_eq place hk]
    split
    · have hrest : Agree (as' = [])
          (kind as (valuePlace place e'.1) e.2 >>= fun kd =>
            kindEntries as room place (some kd) es)
          (kind as' (valuePlace place e'.1) e'.2 >>= fun kd =>
            kindEntries as' room place (some kd) es') :=
        .bind (agree_kind _ hv) fun kd => ih (some kd)
      exact .ite (fun _ => .bind (.throw _) fun _ => hrest) fun _ => hrest
    · exact .bind (agree_content .anyValue room _ hv) fun d => .bind (ih found) fun rest =>
        .pure (rest.1, (c, d) :: rest.2)

theorem agree_kindAndContent (room : Nat) :
    AgreeOn as as' (kindAndContent as room) (kindAndContent as' room) := by
  have htag (p : Properties) : Agree (as' = [])
      (if (localTag? p).isSome then misfit (.wrongType .tagged .step) else Pure.pure ())
      (if (localTag? p).isSome then misfit (.wrongType .tagged .step) else Pure.pure ()) :=
    .ite (fun _ => .throw _) fun _ => .pure ()
  intro place n n' h
  refine .within place (agree_follow h fun hm => ?_)
  cases hm.form with
  | scalar => exact .of_eq rfl (.bind (htag _) fun _ => .throw _)
  | sequence h =>
    refine .bind (htag _) fun _ => ?_
    cases room with
    | zero => exact .throw _
    | succ room =>
      cases h with
      | nil => exact .throw _
      | cons hx hr =>
        exact .bind (agree_kind _ hx) fun kd =>
          .bind (agree_items (agree_content .anyValue room) place 1 hr) fun cs =>
            .pure (kd, Content.sequence cs)
  | mapping h =>
    refine .bind (htag _) fun _ => ?_
    cases room with
    | zero => exact .throw _
    | succ room =>
      exact .bind (agree_kindEntries room place none h) fun rest =>
        .pure (rest.1, Content.mapping rest.2)
  | broken | void | link _ => exact .throw _

theorem agree_step (room : Nat) : AgreeOn as as' (step as room) (step as' room) :=
  fun place _ _ h => .bind (agree_kindAndContent room place h) fun _ => .lift _

/-! ### Records -/

theorem agree_optionalText : AgreeOn as as' (optionalText as) (optionalText as') :=
  agree_optional (agree_text .string)

theorem agree_optionalTexts : AgreeOn as as' (optionalTexts as) (optionalTexts as') :=
  agree_optional agree_texts

theorem agreeFields_labels : AgreeFields as as' (labelsFields as) (labelsFields as') :=
  .cons ⟨rfl, agree_texts.map Labels.Field.authors⟩
    (.cons ⟨rfl, agree_optionalText.map Labels.Field.version⟩
      (.cons ⟨rfl, agree_optionalText.map Labels.Field.description⟩ .nil))

theorem agree_labels : AgreeOn as as' (labels as) (labels as') :=
  (agree_record agreeFields_labels .labels).map Labels.ofFields

theorem agreeFields_definition :
    AgreeFields as as' (definitionFields as) (definitionFields as') :=
  .cons ⟨rfl, agree_optionalText.map Definition.Field.base⟩
    (.cons ⟨rfl, (agree_list (agree_step stepRoom)).map Definition.Field.steps⟩
    (.cons ⟨rfl, (agree_optional agree_port).map Definition.Field.port⟩
    (.cons ⟨rfl, agree_optionalTexts.map Definition.Field.entrypoint⟩
    (.cons ⟨rfl, agree_optionalTexts.map Definition.Field.command⟩
    (.cons ⟨rfl, agree_optionalText.map Definition.Field.author⟩
    (.cons ⟨rfl, (agree_optional agree_labels).map Definition.Field.labels⟩
    (.cons ⟨rfl, agree_texts.map Definition.Field.volumes⟩ .nil)))))))

theorem agree_taggedPolicy {free : Prop} (place : Place) (tag : String) (fault : Option Cause) :
    Agree free (taggedPolicy place tag fault) (taggedPolicy place tag fault) := by
  refine .bind (.lift _) fun p => ?_
  cases fault with
  | none => exact .pure p
  | some cause => exact .within place (.throw _)

theorem agree_policyNode (place : Place) (h : Same as as' n n') :
    Agree (as' = []) (policyNode place n) (policyNode place n') := by
  cases h.form with
  | scalar =>
    refine .of_eq rfl ?_
    rw [policyNode]
    split
    · exact .within place (.lift _)
    · exact agree_taggedPolicy place _ _
  | sequence _ | mapping _ =>
    refine .of_eq rfl ?_
    rw [policyNode]
    split
    · exact .within place (.throw _)
    · exact agree_taggedPolicy place _ _
  | broken | void | link _ => exact .throw _

theorem agree_policy : AgreeOn as as' (policy as) (policy as') := by
  intro place n n' h
  cases h.form with
  | link _ => exact .within place (agree_follow h fun hm => agree_policyNode place hm)
  | broken | void | scalar | sequence _ | mapping _ => exact agree_policyNode place h

theorem agreeFields_settings : AgreeFields as as' (settingsFields as) (settingsFields as') :=
  .cons ⟨rfl, (agree_text .string).map Settings.Field.shell⟩
    (.cons ⟨rfl, agree_policy.map Settings.Field.policy⟩
      (.cons ⟨rfl, agree_bool.map Settings.Field.quiet⟩ .nil))

end Reading

/-! ### Whole texts -/

/-- What is read from a document is found within the number of aliases that may be followed. -/
theorem readYaml_eq_ok_iff {α : Type} {read : List (Nat × Node) → Place → Node → Reading α}
    {t : String} {free : Prop}
    (hread : Agree free (read (Document.load t).anchors [] (Document.load t).root)
      (read (Document.load t).anchors [] (Document.load t).root))
    (ht : (Document.load t).complete = true) {x : α} : readYaml read t = .ok x ↔
      ∃ c ≤ (Document.load t).aliasLimit,
        YieldsAfter c (read (Document.load t).anchors [] (Document.load t).root) x := by
  have hok : readYaml read t = .ok x ↔ ∃ k, read (Document.load t).anchors []
      (Document.load t).root (Document.load t).aliasLimit = .ok (x, k) := by
    rw [readYaml]
    cases read _ _ _ _ with
    | error m => simp
    | ok p => simp [ht, Prod.ext_iff]
  rw [hok]
  constructor
  · rintro ⟨k, hk⟩
    obtain ⟨c, hc, hx, -⟩ := hread.after hk
    exact ⟨c, hc ▸ Nat.le_add_right c k, hx⟩
  · rintro ⟨c, hc, hx⟩
    exact ⟨_, Nat.add_sub_cancel' hc ▸ hx _⟩

end ImageRecipe.Decode
