import ImageRecipe.Proofs.Yaml.Bare
import Mathlib.Algebra.Ring.Nat
import Mathlib.Data.List.Forall2

/-!
# What aliases refer to

An alias has a number, and which node it refers to is told by the anchors of
its document only.  So nodes of two documents are compared by what they unfold
to: without anchors, and with what an alias refers to in the alias, to any
depth.  Nodes that unfold alike are the `Same`, and `Same.form` is the one place
that says what this means for the nodes themselves.

`RootEntries` tells the entries at the root of a document in this way.  Entries
that stand in another order are other entries if an alias among them refers to
another node then.
-/

namespace ImageRecipe.Yaml

/-- A node without its anchors.  An alias holds what it refers to, as far as that is unfolded. -/
inductive Unfolding where
  | broken
  | void
  | link (target : Option Unfolding)
  | scalar (tag : Option String) (style : Style) (text : String)
  | sequence (tag : Option String) (items : List Unfolding)
  | mapping (tag : Option String) (entries : List (Unfolding × Unfolding))

namespace Unfolding

/-- What an alias refers to, and any other node itself. -/
def target : Unfolding → Unfolding
  | .link (some u) => u
  | u => u

mutual

/-- A node of this outline; what its aliases refer to is lost. -/
def outline : Unfolding → Node
  | .broken => .broken
  | .void => .void
  | .link _ => .alias 0
  | .scalar tag style t => .scalar { tag } style t
  | .sequence tag items => .sequence { tag } (outlineItems items)
  | .mapping tag entries => .mapping { tag } (outlineEntries entries)
termination_by structural u => u

def outlineItems : List Unfolding → List Node
  | [] => []
  | u :: r => outline u :: outlineItems r
termination_by structural items => items

def outlineEntries : List (Unfolding × Unfolding) → List (Node × Node)
  | [] => []
  | (k, v) :: r => (outline k, outline v) :: outlineEntries r
termination_by structural entries => entries

end

end Unfolding

namespace Node

mutual

def unfoldBy (refer : Nat → Option Unfolding) : Node → Unfolding
  | .broken => .broken
  | .void => .void
  | .alias number => .link (refer number)
  | .scalar p style t => .scalar p.tag style t
  | .sequence p items => .sequence p.tag (unfoldItems refer items)
  | .mapping p entries => .mapping p.tag (unfoldEntries refer entries)
termination_by structural n => n

def unfoldItems (refer : Nat → Option Unfolding) : List Node → List Unfolding
  | [] => []
  | n :: r => unfoldBy refer n :: unfoldItems refer r
termination_by structural items => items

def unfoldEntries (refer : Nat → Option Unfolding) :
    List (Node × Node) → List (Unfolding × Unfolding)
  | [] => []
  | (k, v) :: r => (unfoldBy refer k, unfoldBy refer v) :: unfoldEntries refer r
termination_by structural entries => entries

end

/-- The node with aliases followed to a depth, through anchors that lie within one another. -/
def unfolding (anchors : List (Nat × Node)) : (depth : Nat) → Node → Unfolding
  | 0 => unfoldBy fun _ => none
  | k + 1 => unfoldBy fun number => (anchors.lookup number).map (unfolding anchors k)

mutual

/-- The outline keeps the faults of the text and the number of events. -/
theorem outline_unfoldBy (refer : Nat → Option Unfolding) : ∀ n : Node,
    (n.unfoldBy refer).outline.isBroken = n.isBroken ∧ (n.unfoldBy refer).outline.size = n.size
  | .broken | .void | .alias _ | .scalar _ _ _ => ⟨rfl, rfl⟩
  | .sequence _ items => by
    obtain ⟨hbroken, hsize⟩ := outlineItems_unfoldItems refer items
    exact ⟨hbroken, by rw [unfoldBy, Unfolding.outline, size, size, hbroken, hsize]⟩
  | .mapping _ entries => by
    obtain ⟨hbroken, hsize⟩ := outlineEntries_unfoldEntries refer entries
    exact ⟨hbroken, by rw [unfoldBy, Unfolding.outline, size, size, hbroken, hsize]⟩

theorem outlineItems_unfoldItems (refer : Nat → Option Unfolding) : ∀ ns : List Node,
    anyBroken (Unfolding.outlineItems (unfoldItems refer ns)) = anyBroken ns ∧
      itemsSize (Unfolding.outlineItems (unfoldItems refer ns)) = itemsSize ns
  | [] => ⟨rfl, rfl⟩
  | n :: r => by
    obtain ⟨hn, hnsize⟩ := outline_unfoldBy refer n
    obtain ⟨hr, hrsize⟩ := outlineItems_unfoldItems refer r
    rw [unfoldItems, Unfolding.outlineItems, anyBroken, itemsSize, anyBroken, itemsSize, hn, hr,
      hnsize, hrsize]
    exact ⟨rfl, rfl⟩

theorem outlineEntries_unfoldEntries (refer : Nat → Option Unfolding) : ∀ es : List (Node × Node),
    anyEntryBroken (Unfolding.outlineEntries (unfoldEntries refer es)) = anyEntryBroken es ∧
      entriesSize (Unfolding.outlineEntries (unfoldEntries refer es)) = entriesSize es
  | [] => ⟨rfl, rfl⟩
  | (k, v) :: r => by
    obtain ⟨hk, hksize⟩ := outline_unfoldBy refer k
    obtain ⟨hv, hvsize⟩ := outline_unfoldBy refer v
    obtain ⟨hr, hrsize⟩ := outlineEntries_unfoldEntries refer r
    rw [unfoldEntries, Unfolding.outlineEntries, anyEntryBroken, entriesSize, anyEntryBroken,
      entriesSize, hk, hv, hr, hksize, hvsize, hrsize]
    exact ⟨rfl, rfl⟩

end

mutual

/-- A node without aliases unfolds to the bare node. -/
theorem unfoldBy_bare (refer refer' : Nat → Option Unfolding) : ∀ n : Node, n.hasAlias = false →
    n.bare.unfoldBy refer' = n.unfoldBy refer
  | .broken, _ | .void, _ | .scalar _ _ _, _ => rfl
  | .sequence p items, h => congrArg (Unfolding.sequence p.tag) (unfoldItems_bare _ _ items h)
  | .mapping p entries, h => congrArg (Unfolding.mapping p.tag) (unfoldEntries_bare _ _ entries h)

theorem unfoldItems_bare (refer refer' : Nat → Option Unfolding) : ∀ ns : List Node,
    anyAlias ns = false → unfoldItems refer' (bareItems ns) = unfoldItems refer ns
  | [], _ => rfl
  | n :: r, h => by
    obtain ⟨hn, hr⟩ := Bool.or_eq_false_iff.mp h
    rw [bareItems, unfoldItems, unfoldItems, unfoldBy_bare refer refer' n hn,
      unfoldItems_bare refer refer' r hr]

theorem unfoldEntries_bare (refer refer' : Nat → Option Unfolding) : ∀ es : List (Node × Node),
    anyEntryAlias es = false → unfoldEntries refer' (bareEntries es) = unfoldEntries refer es
  | [], _ => rfl
  | (k, v) :: r, h => by
    obtain ⟨he, hr⟩ := Bool.or_eq_false_iff.mp h
    obtain ⟨hk, hv⟩ := Bool.or_eq_false_iff.mp he
    rw [bareEntries, unfoldEntries, unfoldEntries, unfoldBy_bare refer refer' k hk,
      unfoldBy_bare refer refer' v hv, unfoldEntries_bare refer refer' r hr]

end

theorem unfoldItems_eq_map (refer : Nat → Option Unfolding) (ns : List Node) :
    unfoldItems refer ns = ns.map (unfoldBy refer) := by
  induction ns with
  | nil => rfl
  | cons n ns ih => rw [unfoldItems, List.map_cons, ih]

theorem unfoldEntries_eq_map (refer : Nat → Option Unfolding) (es : List (Node × Node)) :
    unfoldEntries refer es = es.map fun e => (unfoldBy refer e.1, unfoldBy refer e.2) := by
  induction es with
  | nil => rfl
  | cons e es ih => rw [unfoldEntries, List.map_cons, ih]

theorem unfolding_sequence (anchors : List (Nat × Node)) (depth : Nat) (p : Properties)
    (ns : List Node) : (sequence p ns).unfolding anchors depth
      = .sequence p.tag (ns.map (unfolding anchors depth)) := by
  cases depth <;> rw [unfolding, unfoldBy, unfoldItems_eq_map]

theorem unfolding_mapping (anchors : List (Nat × Node)) (depth : Nat) (p : Properties)
    (es : List (Node × Node)) : (mapping p es).unfolding anchors depth
      = .mapping p.tag (es.map fun e => (unfolding anchors depth e.1, unfolding anchors depth e.2)) := by
  cases depth <;> rw [unfolding, unfoldBy, unfoldEntries_eq_map]

end Node

/-! ### The same nodes -/

variable {as as' : List (Nat × Node)} {n n' : Node}

/-- Nodes of two documents, of which these are the anchors, that unfold alike. -/
def Same (as as' : List (Nat × Node)) (n n' : Node) : Prop :=
  ∀ depth, n.unfolding as depth = n'.unfolding as' depth

theorem Same.refl (as : List (Nat × Node)) (n : Node) : Same as as n n :=
  fun _ => rfl

theorem Same.refl_entries (as : List (Nat × Node)) (es : List (Node × Node)) :
    List.Forall₂ (fun e e' => Same as as e.1 e'.1 ∧ Same as as e.2 e'.2) es es :=
  List.forall₂_same.mpr fun _ _ => ⟨.refl as _, .refl as _⟩

/-- No alias, no matter which anchors. -/
theorem Same.bare (h : n.hasAlias = false) : Same as as' n n.bare
  | 0 | _ + 1 => (Node.unfoldBy_bare _ _ n h).symm

/-- What the nodes are that unfold alike. -/
inductive SameForm (as as' : List (Nat × Node)) : Node → Node → Prop
  | broken : SameForm as as' .broken .broken
  | void : SameForm as as' .void .void
  | link {a a' : Nat} (h : Option.Rel (Same as as') (as.lookup a) (as'.lookup a')) :
      SameForm as as' (.alias a) (.alias a')
  | scalar {a a' : Option Nat} {tag : Option String} {style : Style} {t : String} :
      SameForm as as' (.scalar ⟨a, tag⟩ style t) (.scalar ⟨a', tag⟩ style t)
  | sequence {a a' : Option Nat} {tag : Option String} {ns ns' : List Node}
      (h : List.Forall₂ (Same as as') ns ns') :
      SameForm as as' (.sequence ⟨a, tag⟩ ns) (.sequence ⟨a', tag⟩ ns')
  | mapping {a a' : Option Nat} {tag : Option String} {es es' : List (Node × Node)}
      (h : List.Forall₂ (fun e e' => Same as as' e.1 e'.1 ∧ Same as as' e.2 e'.2) es es') :
      SameForm as as' (.mapping ⟨a, tag⟩ es) (.mapping ⟨a', tag⟩ es')

/-- Lists that agree at every depth agree item by item. -/
theorem forall₂_of_map_eq {α β : Type} {f f' : Nat → α → β} {xs xs' : List α}
    (h : ∀ depth, xs.map (f depth) = xs'.map (f' depth)) :
    List.Forall₂ (fun x x' => ∀ depth, f depth x = f' depth x') xs xs' := by
  induction xs generalizing xs' with
  | nil =>
    cases xs' with
    | nil => exact .nil
    | cons x' xs' => cases h 0
  | cons x xs ih =>
    cases xs' with
    | nil => cases h 0
    | cons x' xs' =>
      exact .cons (fun depth => (List.cons.inj (h depth)).1) (ih fun depth =>
        (List.cons.inj (h depth)).2)

/-- **Nodes that unfold alike have one form**, and so have their parts. -/
theorem Same.form (h : Same as as' n n') : SameForm as as' n n' := by
  have h0 := h 0
  cases n with
  | broken =>
    cases n' with
    | broken => exact .broken
    | _ => cases h0
  | void =>
    cases n' with
    | void => exact .void
    | _ => cases h0
  | «alias» a =>
    cases n' with
    | «alias» a' =>
      have hrefer (depth : Nat) : (as.lookup a).map (Node.unfolding as depth)
          = (as'.lookup a').map (Node.unfolding as' depth) := Unfolding.link.inj (h (depth + 1))
      refine .link ?_
      cases ha : as.lookup a with
      | none =>
        rw [ha] at hrefer
        rw [Option.map_eq_none_iff.mp (hrefer 0).symm]
        exact .none
      | some m =>
        cases ha' : as'.lookup a' with
        | none =>
          rw [ha, ha'] at hrefer
          cases hrefer 0
        | some m' =>
          rw [ha, ha'] at hrefer
          exact .some fun depth => Option.some.inj (hrefer depth)
    | _ => cases h0
  | scalar p style t =>
    cases n' with
    | scalar p' style' t' =>
      obtain ⟨a, tag⟩ := p
      obtain ⟨a', tag'⟩ := p'
      obtain ⟨rfl, rfl, rfl⟩ := Unfolding.scalar.inj h0
      exact .scalar
    | _ => cases h0
  | sequence p ns =>
    cases n' with
    | sequence p' ns' =>
      obtain ⟨a, tag⟩ := p
      obtain ⟨a', tag'⟩ := p'
      obtain ⟨rfl, -⟩ := Unfolding.sequence.inj h0
      refine .sequence (forall₂_of_map_eq fun depth => ?_)
      have hdepth := h depth
      rw [Node.unfolding_sequence, Node.unfolding_sequence] at hdepth
      exact (Unfolding.sequence.inj hdepth).2
    | _ => cases h0
  | mapping p es =>
    cases n' with
    | mapping p' es' =>
      obtain ⟨a, tag⟩ := p
      obtain ⟨a', tag'⟩ := p'
      obtain ⟨rfl, -⟩ := Unfolding.mapping.inj h0
      have hentries (depth : Nat) :
          es.map (fun e => (e.1.unfolding as depth, e.2.unfolding as depth))
            = es'.map fun e => (e.1.unfolding as' depth, e.2.unfolding as' depth) := by
        have hdepth := h depth
        rw [Node.unfolding_mapping, Node.unfolding_mapping] at hdepth
        exact (Unfolding.mapping.inj hdepth).2
      exact .mapping ((forall₂_of_map_eq hentries).imp fun e e' he =>
        ⟨fun depth => (Prod.mk.inj (he depth)).1, fun depth => (Prod.mk.inj (he depth)).2⟩)
    | _ => cases h0

/-! ### Entries -/

/-- A key and its value in some document, unfolded to every depth. -/
@[ext] structure Entry where
  unfolded : Nat → Unfolding × Unfolding
  exists_nodes : ∃ (anchors : List (Nat × Node)) (e : Node × Node), unfolded = fun depth =>
    (e.1.unfolding anchors depth, e.2.unfolding anchors depth)

namespace Entry

def of (anchors : List (Nat × Node)) (e : Node × Node) : Entry where
  unfolded depth := (e.1.unfolding anchors depth, e.2.unfolding anchors depth)
  exists_nodes := ⟨anchors, e, rfl⟩

theorem exists_of (e : Entry) : ∃ anchors n, of anchors n = e := by
  obtain ⟨_, anchors, n, rfl⟩ := e
  exact ⟨anchors, n, rfl⟩

theorem of_eq_of_iff {e e' : Node × Node} :
    of as e = of as' e' ↔ Same as as' e.1 e'.1 ∧ Same as as' e.2 e'.2 := by
  constructor
  · intro h
    have hparts (depth : Nat) := congrArg (fun entry => entry.unfolded depth) h
    exact ⟨fun depth => congrArg Prod.fst (hparts depth),
      fun depth => congrArg Prod.snd (hparts depth)⟩
  · exact fun ⟨hk, hv⟩ => Entry.ext (funext fun depth => Prod.ext (hk depth) (hv depth))

theorem map_of_eq_map_of_iff {es es' : List (Node × Node)} : es.map (of as) = es'.map (of as') ↔
    List.Forall₂ (fun e e' => Same as as' e.1 e'.1 ∧ Same as as' e.2 e'.2) es es' := by
  rw [← List.forall₂_eq_eq_eq, List.forall₂_map_left_iff, List.forall₂_map_right_iff]
  simp only [of_eq_of_iff]

def size (e : Entry) : Nat :=
  (e.unfolded 0).1.outline.size + (e.unfolded 0).2.outline.size

def isBroken (e : Entry) : Bool :=
  (e.unfolded 0).1.outline.isBroken || (e.unfolded 0).2.outline.isBroken

theorem size_of (k v : Node) : (of as (k, v)).size = k.size + v.size :=
  congrArg₂ (· + ·) (k.outline_unfoldBy _).2 (v.outline_unfoldBy _).2

theorem isBroken_of (k v : Node) : (of as (k, v)).isBroken = (k.isBroken || v.isBroken) :=
  congrArg₂ (· || ·) (k.outline_unfoldBy _).1 (v.outline_unfoldBy _).1

def rootSize (es : List Entry) : Nat :=
  (es.map size).sum + if es.any isBroken then 1 else 2

theorem rootSize_map_of (anchors : List (Nat × Node)) (p : Properties) (es : List (Node × Node)) :
    rootSize (es.map (of anchors)) = (Node.mapping p es).size := by
  have hentries : ((es.map (of anchors)).map size).sum = Node.entriesSize es ∧
      (es.map (of anchors)).any isBroken = Node.anyEntryBroken es := by
    induction es with
    | nil => exact ⟨rfl, rfl⟩
    | cons e es ih =>
      obtain ⟨k, v⟩ := e
      obtain ⟨hsize, hbroken⟩ := ih
      constructor
      · rw [List.map_cons, List.map_cons, List.sum_cons, hsize, Node.entriesSize, size_of]
      · rw [List.map_cons, List.any_cons, hbroken, Node.anyEntryBroken, isBroken_of]
  rw [rootSize, hentries.1, hentries.2, Node.size]

theorem rootSize_perm {es es' : List Entry} (h : es.Perm es') : rootSize es = rootSize es' := by
  rw [rootSize, rootSize, (h.map size).sum_nat, h.any_eq]

theorem rootSize_cons {e : Entry} (he : e.isBroken = false) (es : List Entry) :
    rootSize (e :: es) = e.size + rootSize es := by
  rw [rootSize, rootSize, List.map_cons, List.sum_cons, List.any_cons, he, Bool.false_or,
    Nat.add_assoc]

end Entry

/-- The text is a document.  Its root is a mapping, under a tag or not, and these are its
entries. -/
structure RootEntries (tag : Option String) (text : String) (entries : List Entry) : Prop where
  complete : (Document.load text).complete = true
  root : ∃ (anchor : Option Nat) (es : List (Node × Node)),
    (Document.load text).root = .mapping ⟨anchor, tag⟩ es ∧
      es.map (Entry.of (Document.load text).anchors) = entries

namespace RootEntries

variable {tag : Option String} {text : String}

theorem aliasLimit_eq {entries : List Entry} (h : RootEntries tag text entries) :
    (Document.load text).aliasLimit = Entry.rootSize entries * 100 := by
  obtain ⟨anchor, es, hroot, rfl⟩ := h.root
  rw [Document.aliasLimit, Entry.rootSize_map_of _ ⟨anchor, tag⟩, hroot]

/-- Without aliases there is nothing to unfold. -/
theorem of_hasEntries {es : List (Node × Node)} (h : HasEntries tag text es) :
    RootEntries tag text (es.map (Entry.of [])) := by
  have hsame : Same (Document.load text).anchors [] (Document.load text).root
      (.mapping { tag } es) := h.root ▸ .bare h.noAlias
  have hform := hsame.form
  generalize hroot : (Document.load text).root = n at hform
  cases hform with
  | mapping hes => exact ⟨h.complete, _, _, hroot, Entry.map_of_eq_map_of_iff.mpr hes⟩

end RootEntries

end ImageRecipe.Yaml
