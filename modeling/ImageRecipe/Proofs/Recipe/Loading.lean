import ImageRecipe.Proofs.Recipe.History
import Mathlib.Data.List.Forall2

/-!
# Loading definitions

A recipe comes into being in two ways: empty, to be filled by changes, or from a
definition as a whole.  Both hold its steps to one form, `Step.Settled`, and
every call after them keeps it.

* `Spec.ofDefinition_eq_error_iff`: a definition is refused as the first of its
  copies to a path that is not absolute.
* `Spec.ofDefinition_of_settled`: loading a settled definition changes nothing.
* `Spec.settled_applyOrKeep`: a change keeps the form of the steps.
* `Spec.Reachable.settled`: so every recipe that calls can make is settled.
-/

namespace ImageRecipe

/-! ### Lists of steps that can fail -/

/-- A list of steps succeeds if and only if each step does. -/
theorem mapM_eq_ok_iff {ε α β : Type} {f : α → Except ε β} {xs : List α} {ys : List β} :
    xs.mapM f = .ok ys ↔ List.Forall₂ (fun x y => f x = .ok y) xs ys := by
  induction xs generalizing ys with
  | nil => cases ys <;> simp [pure, Except.pure]
  | cons x xs ih =>
    rw [List.mapM_cons, List.forall₂_cons_left_iff]
    cases hx : f x with
    | error e => simp [bind, Except.bind]
    | ok y =>
      cases hxs : xs.mapM f with
      | error e => simp [bind, Except.bind, ← ih, hxs]
      | ok zs => simp [bind, Except.bind, pure, Except.pure, ← ih, hxs, eq_comm]

/-- A place in a list is its head or a place in its tail. -/
theorem exists_split_cons_iff {α : Type} {P : List α → α → Prop} {x : α} {xs : List α} :
    (∃ before y after, x :: xs = before ++ y :: after ∧ P before y) ↔
      P [] x ∨ ∃ before y after, xs = before ++ y :: after ∧ P (x :: before) y := by
  constructor
  · rintro ⟨before, y, after, hsplit, hy⟩
    cases before with
    | nil =>
      obtain ⟨rfl, _⟩ := List.cons.inj hsplit
      exact .inl hy
    | cons b before =>
      obtain ⟨rfl, rfl⟩ := List.cons.inj hsplit
      exact .inr ⟨before, y, after, rfl, hy⟩
  · rintro (hx | ⟨before, y, after, rfl, hy⟩)
    · exact ⟨[], x, xs, rfl, hx⟩
    · exact ⟨x :: before, y, after, rfl, hy⟩

/-- A list of steps fails as the first step that does. -/
theorem mapM_eq_error_iff {ε α β : Type} {f : α → Except ε β} {xs : List α} {e : ε} :
    xs.mapM f = .error e ↔ ∃ before x after, xs = before ++ x :: after ∧
      (∀ y ∈ before, ∃ z, f y = .ok z) ∧ f x = .error e := by
  induction xs with
  | nil => simp [pure, Except.pure]
  | cons x xs ih =>
    rw [List.mapM_cons, exists_split_cons_iff]
    cases hx : f x with
    | error e' => simp [bind, Except.bind, hx]
    | ok z =>
      have htail : (do let ys ← xs.mapM f; pure (z :: ys)) = Except.error e ↔
          xs.mapM f = .error e := by
        cases xs.mapM f <;> simp [bind, Except.bind, pure, Except.pure]
      refine htail.trans (ih.trans ?_)
      simp [hx]

/-! ### The form of the steps -/

theorem absolutePath_iff {path : String} :
    absolutePath path = true ↔ path.toList.head? = some '/' := by
  simp [absolutePath]

namespace Step

/-- The step is as a recipe keeps it: no blanks around the texts of an environment entry, and
copies to absolute paths only. -/
def Settled : Step → Prop
  | .env name value => Text.Trimmed name ∧ Text.Trimmed value
  | .copy _ dest => dest.toList.head? = some '/'
  | _ => True

theorem Settled.of_normalize {s t : Step} (h : s.normalize = .ok t) : t.Settled := by
  cases s with
  | run | user | workdir => cases h; trivial
  | env name value =>
    cases h
    exact ⟨Text.trimmed_trim name, Text.trimmed_trim value⟩
  | copy src dest =>
    by_cases hdest : absolutePath dest
    · rw [normalize, if_pos hdest] at h
      cases h
      exact absolutePath_iff.mp hdest
    · rw [normalize, if_neg hdest] at h
      cases h

theorem Settled.of_mapM_normalize {ss ts : List Step} (h : ss.mapM normalize = .ok ts) :
    ∀ t ∈ ts, t.Settled := by
  replace h := mapM_eq_ok_iff.mp h
  induction h with
  | nil => simp
  | cons hst _ ih =>
    intro u hu
    rcases List.mem_cons.mp hu with rfl | hu
    · exact .of_normalize hst
    · exact ih u hu

theorem Settled.normalize_eq {s : Step} (h : s.Settled) : s.normalize = .ok s := by
  cases s with
  | run | user | workdir => rfl
  | env name value => rw [normalize, h.1.trim_eq, h.2.trim_eq]
  | copy src dest => rw [normalize, if_pos (absolutePath_iff.mpr h)]

/-- Only a copy to a path that is not absolute is refused. -/
theorem normalize_eq_error_iff {s : Step} {e : Failure} : s.normalize = .error e ↔
    ∃ src dest, s = .copy src dest ∧ dest.toList.head? ≠ some '/' ∧
      e = .relativeDestination dest := by
  cases s with
  | run | env | user | workdir => simp [normalize]
  | copy src dest =>
    by_cases hdest : absolutePath dest
    · simp [normalize, hdest, absolutePath_iff.mp hdest]
    · have hrel : dest.toList.head? ≠ some '/' := mt absolutePath_iff.mpr hdest
      simp [normalize, hdest, hrel, eq_comm (a := e)]

theorem exists_normalize_eq_ok_iff {s : Step} : (∃ t, s.normalize = .ok t) ↔
    ∀ src dest, s = .copy src dest → dest.toList.head? = some '/' := by
  cases s with
  | run | env | user | workdir => simp [normalize]
  | copy src dest =>
    by_cases hdest : absolutePath dest
    · simp [normalize, hdest, absolutePath_iff.mp hdest]
    · have hrel : dest.toList.head? ≠ some '/' := mt absolutePath_iff.mpr hdest
      simp [normalize, hdest, hrel]

end Step

def Definition.Settled (d : Definition) : Prop :=
  ∀ s ∈ d.steps, s.Settled

theorem Definition.Settled.addStep {d : Definition} {s : Step} (hd : d.Settled) (hs : s.Settled) :
    (d.addStep s).Settled := by
  intro t ht
  rcases List.mem_append.mp ht with ht | ht
  · exact hd t ht
  · rw [List.mem_singleton.mp ht]
    exact hs

/-! ### Loading -/

namespace Spec

theorem ofDefinition_eq (d : Definition) (identity : String) : ofDefinition d identity
    = (d.steps.mapM Step.normalize).map fun steps => ⟨identity, { d with steps }⟩ := by
  rw [ofDefinition]
  cases d.steps.mapM Step.normalize <;> rfl

/-- What is loaded is settled. -/
theorem settled_of_ofDefinition {d : Definition} {identity : String} {s : Spec}
    (h : ofDefinition d identity = .ok s) : s.definition.Settled := by
  rw [ofDefinition_eq] at h
  cases hsteps : d.steps.mapM Step.normalize with
  | error e =>
    rw [hsteps] at h
    cases h
  | ok steps =>
    rw [hsteps] at h
    cases h
    exact Step.Settled.of_mapM_normalize hsteps

/-- **Loading what is settled changes nothing.** -/
theorem ofDefinition_of_settled {d : Definition} (h : d.Settled) (identity : String) :
    ofDefinition d identity = .ok ⟨identity, d⟩ := by
  have hsteps : d.steps.mapM Step.normalize = .ok d.steps :=
    mapM_eq_ok_iff.mpr (List.forall₂_same.mpr fun s hs => (h s hs).normalize_eq)
  rw [ofDefinition_eq, hsteps]
  rfl

/-- Under which name a definition is loaded makes no difference but to the name. -/
theorem map_clone_ofDefinition (d : Definition) (identity fresh : String) :
    (ofDefinition d identity).map (·.clone fresh) = ofDefinition d fresh := by
  rw [ofDefinition_eq, ofDefinition_eq]
  cases d.steps.mapM Step.normalize <;> rfl

/-- A definition is refused as the first of its copies to a path that is not absolute. -/
theorem ofDefinition_eq_error_iff {d : Definition} {identity : String} {e : Failure} :
    ofDefinition d identity = .error e ↔ ∃ before src dest after,
      d.steps = before ++ .copy src dest :: after ∧
      (∀ src' dest', .copy src' dest' ∈ before → dest'.toList.head? = some '/') ∧
      dest.toList.head? ≠ some '/' ∧ e = .relativeDestination dest := by
  have hsteps : ofDefinition d identity = .error e ↔ d.steps.mapM Step.normalize = .error e := by
    rw [ofDefinition_eq]
    cases d.steps.mapM Step.normalize <;> simp [Except.map]
  rw [hsteps, mapM_eq_error_iff]
  constructor
  · rintro ⟨before, s, after, hsplit, hbefore, hs⟩
    obtain ⟨src, dest, rfl, hdest, rfl⟩ := Step.normalize_eq_error_iff.mp hs
    refine ⟨before, src, dest, after, hsplit, ?_, hdest, rfl⟩
    intro src' dest' hmem
    exact Step.exists_normalize_eq_ok_iff.mp (hbefore _ hmem) src' dest' rfl
  · rintro ⟨before, src, dest, after, hsplit, hbefore, hdest, rfl⟩
    refine ⟨before, _, after, hsplit, ?_, Step.normalize_eq_error_iff.mpr
      ⟨src, dest, rfl, hdest, rfl⟩⟩
    intro s hs
    refine Step.exists_normalize_eq_ok_iff.mpr fun src' dest' hcopy => ?_
    exact hbefore src' dest' (hcopy ▸ hs)

/-! ### The recipes that calls can make -/

/-- The recipes that calls make: those that start empty or from a definition, and whatever changes,
accepted or refused, and copies under another name make of them. -/
inductive Reachable : Spec → Prop
  | empty (identity : String) : Reachable (.empty identity)
  | load {d : Definition} {identity : String} {s : Spec} :
    ofDefinition d identity = .ok s → Reachable s
  | change {s : Spec} (c : Change) : Reachable s → Reachable (s.applyOrKeep c)
  | clone {s : Spec} (fresh : String) : Reachable s → Reachable (s.clone fresh)

/-- A change keeps the form of the steps: it leaves them, or adds one of that form. -/
theorem settled_applyOrKeep {s : Spec} (hs : s.definition.Settled) (c : Change) :
    (s.applyOrKeep c).definition.Settled := by
  cases c with
  | base | volume | author | expose | command | entrypoint | labels => exact hs
  | run | user | workdir => exact hs.addStep trivial
  | env name value => exact hs.addStep ⟨Text.trimmed_trim name, Text.trimmed_trim value⟩
  | copy src dest =>
    rw [applyOrKeep, perform_copy]
    by_cases hdest : absolutePath dest
    · rw [if_pos hdest]
      exact hs.addStep (absolutePath_iff.mp hdest)
    · rw [if_neg hdest]
      exact hs

theorem Reachable.settled {s : Spec} (h : s.Reachable) : s.definition.Settled := by
  induction h with
  | empty identity => exact fun s hs => absurd hs List.not_mem_nil
  | load hload => exact settled_of_ofDefinition hload
  | change c _ ih => exact settled_applyOrKeep ih c
  | clone fresh _ ih => exact ih

/-- **The recipes that calls can make are the settled ones**, and they are those that loading gives
back as they are.  So a definition that was loaded can be loaded again, under any name, and nothing
changes. -/
theorem reachable_settled_reload (s : Spec) :
    (s.Reachable ↔ ∀ step ∈ s.definition.steps, step.Settled) ∧
    (s.Reachable ↔ ofDefinition s.definition s.identity = .ok s) ∧
    ∀ (d : Definition) (identity fresh : String),
      ((ofDefinition d identity).bind fun t => ofDefinition t.definition fresh)
        = ofDefinition d fresh := by
  have hload : s.definition.Settled → ofDefinition s.definition s.identity = .ok s :=
    fun hs => ofDefinition_of_settled hs s.identity
  refine ⟨⟨Reachable.settled, fun hs => .load (hload hs)⟩,
    ⟨fun hs => hload hs.settled, .load⟩, ?_⟩
  intro d identity fresh
  rw [← map_clone_ofDefinition d identity fresh]
  cases ht : ofDefinition d identity with
  | error e => rfl
  | ok t => exact ofDefinition_of_settled (settled_of_ofDefinition ht) fresh

end Spec

end ImageRecipe
