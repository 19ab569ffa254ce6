import ImageRecipe.Proofs.Recipe.Loading

/-!
# Loading is replaying

A definition stands for a sequence of changes: one for each field that is there,
one for each volume, and one for each step.  Replayed on an empty recipe, up to
the first that is refused, they make what loading the definition makes, and fail
as it fails.

The two sides go about it in different ways.  Loading looks at the steps alone
and carries the other fields over; replaying builds every field anew.  What the
fields come to is read off their history (`after_fieldChanges`), and for the
steps a normalized step is the one that its change adds (`apply_change`).
-/

namespace ImageRecipe

def Step.change : Step → Change
  | .run cmd => .run cmd
  | .env name value => .env name value
  | .copy src dest => .copy src dest
  | .user id => .user id
  | .workdir dir => .workdir dir

namespace Definition

/-- The changes that set the fields of a definition that are there, and add its volumes. -/
def fieldChanges (d : Definition) : List Change :=
  (d.base.map .base).toList
    ++ (d.command.map fun argv => .command (argv.map .one)).toList
    ++ (d.entrypoint.map fun argv => .entrypoint (argv.map .one)).toList
    ++ (d.author.map .author).toList
    ++ (d.port.map .expose).toList
    ++ (d.labels.map .labels).toList
    ++ d.volumes.map .volume

def changes (d : Definition) : List Change :=
  d.fieldChanges ++ d.steps.map Step.change

theorem not_refused_of_mem_fieldChanges {d : Definition} :
    ∀ c ∈ d.fieldChanges, ¬c.Refused := by
  intro c hc
  simp only [fieldChanges, List.mem_append, Option.mem_toList, Option.map_eq_some_iff,
    List.mem_map] at hc
  rcases hc with (((((⟨_, _, rfl⟩ | ⟨_, _, rfl⟩) | ⟨_, _, rfl⟩) | ⟨_, _, rfl⟩) | ⟨_, _, rfl⟩) |
    ⟨_, _, rfl⟩) | ⟨_, _, rfl⟩ <;> exact id

end Definition

namespace Spec

/-! ### Replaying -/

/-- The recipe after a sequence of changes, or the first refusal; what follows it is not tried. -/
def replay (s : Spec) (cs : List Change) : Except Failure Spec :=
  cs.foldlM apply s

theorem replay_nil (s : Spec) : s.replay [] = .ok s :=
  rfl

theorem replay_cons (s : Spec) (c : Change) (cs : List Change) :
    s.replay (c :: cs) = (s.apply c).bind fun t => t.replay cs :=
  rfl

theorem replay_append (s : Spec) (cs ds : List Change) :
    s.replay (cs ++ ds) = (s.replay cs).bind fun t => t.replay ds :=
  List.foldlM_append

/-- A replay that nothing stops does what the changes do one by one. -/
theorem replay_eq_ok_iff {s t : Spec} {cs : List Change} :
    s.replay cs = .ok t ↔ (∀ c ∈ cs, ¬c.Refused) ∧ t = s.applyAll cs := by
  induction cs generalizing s with
  | nil => simp [replay_nil, applyAll, eq_comm]
  | cons c cs ih =>
    rw [replay_cons, List.forall_mem_cons]
    cases hc : s.apply c with
    | error e =>
      have hrefused : c.Refused := exists_apply_eq_error_iff.mp ⟨e, hc⟩
      constructor
      · intro h
        cases h
      · intro h
        exact absurd hrefused h.1.1
    | ok u =>
      have haccepted : ¬c.Refused := by
        intro hrefused
        obtain ⟨e, he⟩ := exists_apply_eq_error_iff (s := s).mpr hrefused
        cases hc.symm.trans he
      have hall : s.applyAll (c :: cs) = u.applyAll cs := by
        rw [applyAll, List.foldl_cons, applyOrKeep_of_apply_eq_ok hc]
        rfl
      rw [hall]
      exact ih.trans (by simp [haccepted])

/-! ### The fields -/

theorem flatMap_texts_one (argv : List String) :
    (argv.map Argument.one).flatMap Argument.texts = argv := by
  rw [List.flatMap_map]
  exact List.flatMap_singleton' argv

/-- What is read off the change of a field that may be absent. -/
theorem filterMap_toList_map {α β : Type} (change : α → Change) (f : Change → Option β)
    (v : Option α) : (v.map change).toList.filterMap f = (v.bind fun x => f (change x)).toList := by
  cases v with
  | none => rfl
  | some x => cases hx : f (change x) <;> simp [hx]

theorem getLast?_toList {α : Type} (v : Option α) : v.toList.getLast? = v := by
  cases v <;> rfl

theorem after_fieldChanges (d : Definition) (identity : String) :
    (empty identity).after d.fieldChanges = ⟨identity, { d with steps := [] }⟩ := by
  simp [after, empty, Definition.fieldChanges, Change.latest, filterMap_toList_map,
    flatMap_texts_one, List.filterMap_map, Function.comp_def, getLast?_toList]

theorem replay_fieldChanges (d : Definition) (identity : String) :
    (empty identity).replay d.fieldChanges = .ok ⟨identity, { d with steps := [] }⟩ := by
  refine replay_eq_ok_iff.mpr ⟨Definition.not_refused_of_mem_fieldChanges, ?_⟩
  rw [applyAll_eq_after, after_fieldChanges]

/-! ### The steps -/

/-- A normalized step is the one that its change adds. -/
theorem apply_change (s : Spec) (step : Step) : s.apply step.change
    = step.normalize.map fun t => { s with definition := s.definition.addStep t } := by
  cases step with
  | run | env | user | workdir => rfl
  | copy src dest =>
    rw [apply, Step.change, perform_copy, Step.normalize]
    split <;> rfl

theorem replay_steps (s : Spec) (steps : List Step) : s.replay (steps.map Step.change)
    = (steps.mapM Step.normalize).map fun ts =>
        { s with definition := { s.definition with steps := s.definition.steps ++ ts } } := by
  induction steps generalizing s with
  | nil => simp [replay_nil, pure, Except.pure, Except.map]
  | cons step steps ih =>
    rw [List.map_cons, replay_cons, apply_change, List.mapM_cons]
    cases step.normalize with
    | error e => rfl
    | ok t =>
      rw [Except.map, Except.bind, ih]
      cases steps.mapM Step.normalize with
      | error e => rfl
      | ok ts => simp [bind, Except.bind, pure, Except.pure, Except.map, Definition.addStep]

/-! ### Loading and replaying -/

theorem ofDefinition_eq_replay (d : Definition) (identity : String) :
    ofDefinition d identity = (empty identity).replay d.changes := by
  rw [Definition.changes, replay_append, replay_fieldChanges, Except.bind, replay_steps,
    ofDefinition_eq]
  rfl

/-- **Loading a definition is replaying it.**  It succeeds if and only if no change is refused, with
the recipe that the changes make, and else fails as the first refused one: the first copy to a path
that is not absolute, whatever follows. -/
theorem ofDefinition_replays (d : Definition) (identity : String) :
    ofDefinition d identity = (empty identity).replay d.changes ∧
    (∀ s, ofDefinition d identity = .ok s ↔
      (∀ c ∈ d.changes, ¬c.Refused) ∧ s = (empty identity).applyAll d.changes) ∧
    ∀ e, ofDefinition d identity = .error e ↔ ∃ before src dest after,
      d.steps = before ++ .copy src dest :: after ∧
      (∀ src' dest', .copy src' dest' ∈ before → dest'.toList.head? = some '/') ∧
      dest.toList.head? ≠ some '/' ∧
      e = .validation ("destination path should be absolute: " ++ dest) := by
  refine ⟨ofDefinition_eq_replay d identity, fun s => ?_, fun e => ofDefinition_eq_error_iff⟩
  rw [ofDefinition_eq_replay]
  exact replay_eq_ok_iff

end Spec

end ImageRecipe
