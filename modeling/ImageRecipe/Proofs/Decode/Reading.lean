import ImageRecipe.Decode.RecordReader
import ImageRecipe.Proofs.Yaml.Document

/-!
# Readers on written values

`Yields` says of a reader that it finds something without following aliases.
For each of the shapes that records are made of there is one lemma: the reader
of the shape yields what was written, provided that the readers of its parts
do.
-/

namespace ImageRecipe.Decode

open Yaml

/-- The reader finds `x`, however many aliases it might follow, and follows none. -/
def Yields {α : Type} (r : Reading α) (x : α) : Prop :=
  ∀ k, r k = .ok (x, k)

namespace Yields

variable {α β : Type} {r : Reading α} {x : α}

theorem pure (x : α) : Yields (Pure.pure x) x :=
  fun _ => rfl

theorem bind {f : α → Reading β} {y : β} (h : Yields r x) (hf : Yields (f x) y) :
    Yields (r >>= f) y := by
  intro k
  have hbind : (r >>= f) k = (r k >>= fun p => f p.1 p.2) := rfl
  rw [hbind, h k]
  exact hf k

theorem map (f : α → β) (h : Yields r x) : Yields (f <$> r) (f x) := by
  intro k
  have hmap : (f <$> r) k = (r k >>= fun p => Pure.pure (f p.1, p.2)) := rfl
  rw [hmap, h k]
  rfl

theorem within (place : Place) (h : Yields r x) : Yields (Reading.within place r) x := by
  intro k
  rw [Reading.within, h k]
  rfl

theorem lift {e : Except Misread α} (h : e = .ok x) : Yields (liftM e : Reading α) x := by
  subst h
  exact fun _ => rfl

end Yields

namespace Reading

variable {anchors : List (Nat × Node)} {hand : Hand}

theorem yields_follow_scalar (p : Properties) (style : Style) (t : String) :
    Yields (follow anchors (.scalar p style t)) (.scalar p style t) :=
  Yields.pure _

/-- No written value is an alias. -/
theorem yields_follow (v : Value) : Yields (follow anchors (hand.node v)) (hand.node v) := by
  match v with
  | .none => exact Yields.pure _
  | .flag true => exact Yields.pure _
  | .flag false => exact Yields.pure _
  | .number _ => exact Yields.pure _
  | .text _ => exact Yields.pure _
  | .list _ => exact Yields.pure _
  | .record _ => exact Yields.pure _

/-! ### Scalars -/

theorem yields_text (expected : Expected) (place : Place) (p : Properties) (style : Style)
    (t : String) : Yields (text anchors expected place (.scalar p style t)) t :=
  .within place (.bind (Yields.pure _) (Yields.pure t))

/-- A numeral has neither a sign nor a zero too many. -/
theorem readNat_decimal (n : Nat) : readNat (Number.decimal n) = some n := by
  rcases Nat.eq_zero_or_pos n with rfl | hn
  · decide
  · have hzero := Number.head_decimal (Nat.ne_of_gt hn)
    have hread := Number.ofDigits?_decimal n
    obtain ⟨c, r, hr⟩ := List.exists_cons_of_ne_nil (Number.decimal_ne_nil n)
    have hc : c.isDigit = true := Number.isDigit_of_mem_decimal (hr ▸ List.mem_cons_self)
    rw [hr] at hzero hread ⊢
    have hplus : c ≠ '+' := ne_of_class hc (by decide)
    have hminus : c ≠ '-' := ne_of_class hc (by decide)
    have hzero : c ≠ '0' := by simpa using hzero
    have hunsigned : unsigned (c :: r) = c :: r := by simp [unsigned, hplus, hminus]
    have hpadded : paddedDigits (c :: r) = false := by simp [paddedDigits, hunsigned, hzero]
    simp [readNat, hplus, hpadded, magnitude?, hzero, hread]

theorem yields_port (place : Place) (p : UInt16) :
    Yields (port anchors place (hand.node (.number p.toNat))) p := by
  have hlt : p.toNat < 65536 := p.toNat_lt
  have hbits : p.toNat < Number.bits 64 := Nat.lt_trans hlt (by decide)
  refine .within place (.bind (yields_follow_scalar _ _ _) ?_)
  have hspells : spells "int" {} .plain = true := rfl
  simp only [hspells, if_true, String.toList_ofList, readNat_decimal, Option.filter_some,
    decide_eq_true hbits, hlt, UInt16.ofNat_toNat]
  exact Yields.pure p

/-! ### What may be absent -/

def IsPresent : Node → Prop
  | .scalar p style t => p.tag = none ∧ (style = .plain → (t.isEmpty || isNull t.toList) = false)
  | .sequence _ _ | .mapping _ _ => True
  | _ => False

theorem isPresent_text (s : String) : IsPresent (hand.node (.text s)) := by
  refine ⟨rfl, fun hplain => ?_⟩
  have hempty : s.isEmpty = s.toList.isEmpty := by
    rw [Bool.eq_iff_iff]
    simp
  have hmeaning := hand.denotes _ hplain
  rw [hempty]
  unfold resolve at hmeaning
  split at hmeaning
  · cases hmeaning
  · next hnot => simpa using hnot

/-- The spellings of null are told by how they start. -/
theorem isPresent_plain {t : String} {c : Char} {r : List Char} (ht : t.toList = c :: r)
    (hc : c ∉ ['n', 'N', '~']) : IsPresent (.scalar {} .plain t) := by
  have hempty : t.isEmpty = false := by
    rw [String.isEmpty_eq_false_iff]
    rintro rfl
    cases ht
  have hnull : isNull t.toList = false := by
    simp only [List.mem_cons, List.not_mem_nil, or_false, not_or] at hc
    simp [ht, isNull, hc]
  exact ⟨rfl, fun _ => by rw [hempty, hnull]; rfl⟩

theorem notMem_nullStarts_of_isDigit {c : Char} (hc : c.isDigit = true) :
    c ∉ ['n', 'N', '~'] := by
  simp only [List.mem_cons, List.not_mem_nil, or_false, not_or]
  exact ⟨Number.ne_of_isDigit hc rfl, Number.ne_of_isDigit hc rfl, Number.ne_of_isDigit hc rfl⟩

theorem isPresent_number (n : Nat) : IsPresent (hand.node (.number n)) := by
  obtain ⟨c, r, hr⟩ := List.exists_cons_of_ne_nil (Number.decimal_ne_nil n)
  have hc : c.isDigit = true := Number.isDigit_of_mem_decimal (hr ▸ List.mem_cons_self)
  exact isPresent_plain (String.toList_ofList.trans hr) (notMem_nullStarts_of_isDigit hc)

/-- **What may be absent is read as it was written**, if what is written when it is there is not
taken for an absence. -/
theorem yields_optional {α : Type} {read : Place → Node → Reading α} {write : α → Value}
    (hread : ∀ x place, Yields (read place (hand.node (write x))) x)
    (hwrite : ∀ x, IsPresent (hand.node (write x))) (place : Place) (o : Option α) :
    Yields (optional anchors read place (hand.node (.optional write o))) o := by
  cases o with
  | none =>
    exact .bind (yields_follow_scalar {} .plain "null")
      (.bind (Yields.pure true) (Yields.pure none))
  | some x =>
    refine .bind (yields_follow (write x)) ?_
    match hand.node (write x), hwrite x, Yields.map some (hread x place) with
    | .scalar p style t, ⟨htag, hthere⟩, hx =>
      by_cases hstyle : style = .plain
      · simp only [hstyle, htag, ne_eq, not_true_eq_false, if_false, hthere hstyle]
        exact hstyle ▸ hx
      · simp only [ne_eq, hstyle, not_false_eq_true, if_true]
        exact hx
    | .sequence _ _, _, hx => exact hx
    | .mapping _ _, _, hx => exact hx

/-! ### Collections -/

theorem yields_items {α : Type} {read : Place → Node → Reading α} {write : α → Value}
    {xs : List α} (hread : ∀ x ∈ xs, ∀ place, Yields (read place (hand.node (write x))) x)
    (place : Place) (i : Nat) :
    Yields (items read place i (hand.itemNodes (xs.map write))) xs := by
  induction xs generalizing i with
  | nil => exact Yields.pure _
  | cons x xs ih =>
    rw [List.forall_mem_cons] at hread
    exact .bind (hread.1 _) (.bind (ih hread.2 (i + 1)) (Yields.pure _))

theorem yields_list {α : Type} {read : Place → Node → Reading α} {write : α → Value}
    (hread : ∀ x place, Yields (read place (hand.node (write x))) x) (place : Place)
    (xs : List α) : Yields (list anchors read place (hand.node (.list (xs.map write)))) xs :=
  .within place (.bind (yields_follow _) (yields_items (fun x _ => hread x) place 0))

theorem yields_texts (place : Place) (xs : List String) :
    Yields (texts anchors place (hand.node (.texts xs))) xs :=
  yields_list (fun _ place => yields_text .string place _ _ _) place xs

theorem lookup_of_mem {α : Type} {fs : List (String × α)} (hnames : (fs.map (·.1)).Nodup)
    {f : String × α} (hf : f ∈ fs) : fs.lookup f.1 = some f.2 := by
  induction fs with
  | nil => cases hf
  | cons g fs ih =>
    obtain ⟨hname, hnames⟩ := List.nodup_cons.mp hnames
    rcases List.mem_cons.mp hf with rfl | hf
    · exact List.lookup_cons_self
    · have hne : (f.1 == g.1) = false := by
        rw [beq_eq_false_iff_ne]
        intro h
        exact hname (List.mem_map.mpr ⟨f, hf, h⟩)
      rw [List.lookup_cons, hne]
      exact ih hnames hf

/-- Fields that are known and have different names are all read.  A field is given here by its
name, the value that was written, and what is to be read. -/
theorem yields_fields {φ : Type} {known : Fields φ} {place : Place}
    {fs : List (String × Value × φ)} {seen : List String}
    (hknown : ∀ f ∈ fs, ∃ read, (f.1, read) ∈ known ∧
      ∀ place, Yields (read place (hand.node f.2.1)) f.2.2)
    (hkeys : (known.map (·.1)).Nodup) (hnames : (fs.map (·.1) ++ seen).Nodup) :
    Yields (fields anchors known place seen (hand.fieldNodes (fs.map fun f => (f.1, f.2.1))))
      (fs.map (·.2.2)) := by
  induction fs generalizing seen with
  | nil => exact Yields.pure _
  | cons f fs ih =>
    obtain ⟨k, v, y⟩ := f
    obtain ⟨⟨read, hmem, hread⟩, hknown⟩ := List.forall_mem_cons.mp hknown
    have hlookup : known.lookup k = some read := lookup_of_mem hkeys hmem
    obtain ⟨hfresh, -⟩ := List.nodup_cons.mp hnames
    have hcontains : seen.contains k = false := by
      simpa using fun h => hfresh (List.mem_append_right _ h)
    refine .bind (yields_text .field place {} hand.key k) ?_
    simp only [hlookup, hcontains, Bool.false_eq_true, if_false]
    have hrest := ih hknown (List.perm_middle.nodup_iff.mpr hnames)
    exact .bind (hread _) (.bind hrest (Yields.pure _))

theorem yields_record {φ : Type} {known : Fields φ} {expected : Expected}
    {fs : List (String × Value × φ)} (hknown : ∀ f ∈ fs, ∃ read, (f.1, read) ∈ known ∧
      ∀ place, Yields (read place (hand.node f.2.1)) f.2.2)
    (hkeys : (known.map (·.1)).Nodup) (hnames : (fs.map (·.1)).Nodup) (place : Place) :
    Yields (record anchors expected known place
      (hand.node (.record (fs.map fun f => (f.1, f.2.1))))) (fs.map (·.2.2)) :=
  .within place (.bind (yields_follow _) (yields_fields hknown hkeys (by simpa using hnames)))

end Reading

end ImageRecipe.Decode
