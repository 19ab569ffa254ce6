import ImageRecipe.Proofs.Text.Trim
import ImageRecipe.Recipe.Spec
import Mathlib.Data.List.Basic

/-!
# Recipes as histories

A recipe is filled by changes, one after the other.  What comes of them can be
read off the whole history at once: the steps and the volumes are those that
were added, in order, and every other field is as the last change of its own
kind left it.

`Spec.after` reads a history in this way, and `Spec.after_append` says that one
more change does to it what `Spec.apply` does to a recipe.
-/

namespace ImageRecipe

/-! ### What a change adds -/

namespace Change

/-- The step that a change adds.  A copy adds one only if its destination is absolute. -/
@[simp]
def step? : Change → Option Step
  | .run cmd => some (.run cmd)
  | .env name value => some (.env (Text.trim name) (Text.trim value))
  | .copy src dest => if dest.toList.head? = some '/' then some (.copy src dest) else none
  | .user id => some (.user id)
  | .workdir dir => some (.workdir dir)
  | _ => none

@[simp]
def volume? : Change → Option String
  | .volume path => some path
  | _ => none

@[simp]
def base? : Change → Option String
  | .base image => some image
  | _ => none

@[simp]
def author? : Change → Option String
  | .author name => some name
  | _ => none

@[simp]
def port? : Change → Option UInt16
  | .expose port => some port
  | _ => none

/-- The command that a change sets, its lists put in their places. -/
@[simp]
def command? : Change → Option (List String)
  | .command argv => some (argv.flatMap Argument.texts)
  | _ => none

@[simp]
def entrypoint? : Change → Option (List String)
  | .entrypoint argv => some (argv.flatMap Argument.texts)
  | _ => none

@[simp]
def labels? : Change → Option Labels
  | .labels l => some l
  | _ => none

/-- The change is a copy to a path that is not absolute. -/
def Refused : Change → Prop
  | .copy _ dest => dest.toList.head? ≠ some '/'
  | _ => False

instance : DecidablePred Refused := fun c => by
  cases c <;> simp only [Refused] <;> infer_instance

/-- What the last of the changes that set a value set it to, or else the value before them. -/
def latest {α : Type} (set : Change → Option α) (cs : List Change) (old : Option α) : Option α :=
  (cs.filterMap set).getLast?.or old

theorem latest_append {α : Type} (set : Change → Option α) (cs : List Change) (c : Change)
    (old : Option α) : latest set (cs ++ [c]) old = (set c).or (latest set cs old) := by
  rw [latest, List.filterMap_append]
  cases h : set c <;> simp [h, latest]

end Change

/-! ### Reading a history -/

namespace Spec

def after (s : Spec) (cs : List Change) : Spec :=
  { identity := s.identity
    definition :=
      { base := Change.latest Change.base? cs s.definition.base
        steps := s.definition.steps ++ cs.filterMap Change.step?
        command := Change.latest Change.command? cs s.definition.command
        entrypoint := Change.latest Change.entrypoint? cs s.definition.entrypoint
        volumes := s.definition.volumes ++ cs.filterMap Change.volume?
        author := Change.latest Change.author? cs s.definition.author
        port := Change.latest Change.port? cs s.definition.port
        labels := Change.latest Change.labels? cs s.definition.labels } }

variable {s : Spec}

/-- What a call leaves that only puts something in. -/
theorem run_modify (f : Definition → Definition) (d : Definition) :
    (((modify f : Call PUnit).run).run d).run = (.ok ⟨⟩, f d) :=
  rfl

/-- A copy is refused before anything is put in. -/
theorem perform_copy (s : Spec) (src dest : String) : s.perform (.copy src dest)
    = if absolutePath dest then (.ok (), ⟨s.identity, s.definition.addStep (.copy src dest)⟩)
      else (.error (.relativeDestination dest), s) := by
  rw [perform, edit]
  cases absolutePath dest <;> rfl

/-- A change that is accepted leaves the recipe that it answers with. -/
theorem applyOrKeep_of_apply_eq_ok {c : Change} {t : Spec} (h : s.apply c = .ok t) :
    s.applyOrKeep c = t := by
  rw [apply] at h
  cases hanswer : (s.perform c).1 with
  | error e =>
    rw [hanswer] at h
    cases h
  | ok _ =>
    rw [hanswer] at h
    exact Except.ok.inj h

theorem exists_apply_eq_error_iff {c : Change} : (∃ e, s.apply c = .error e) ↔ c.Refused := by
  cases c
  case copy src dest =>
    by_cases h : dest.toList.head? = some '/' <;>
      simp [apply, perform_copy, absolutePath, Change.Refused, h, Except.map]
  all_goals simp [apply, perform, edit, run_modify, Change.Refused, Except.map]

/-- **A refused change leaves the recipe as it was.** -/
theorem applyOrKeep_of_refused {c : Change} (h : c.Refused) : s.applyOrKeep c = s := by
  cases c with
  | copy src dest =>
    have hdest : absolutePath dest = false := by simpa [absolutePath, Change.Refused] using h
    rw [applyOrKeep, perform_copy, hdest]
    rfl
  | _ => exact h.elim

/-- One more change of a history is one more change of the recipe. -/
theorem after_append (s : Spec) (cs : List Change) (c : Change) :
    s.after (cs ++ [c]) = (s.after cs).applyOrKeep c := by
  cases c
  case copy src dest =>
    by_cases h : dest.toList.head? = some '/' <;>
      simp [after, Change.latest_append, applyOrKeep, perform_copy, absolutePath, h,
        Definition.addStep]
  all_goals
    simp [after, Change.latest_append, applyOrKeep, perform, edit, run_modify, Definition.addStep]

theorem applyAll_eq_after (s : Spec) (cs : List Change) : s.applyAll cs = s.after cs := by
  induction cs using List.reverseRecOn with
  | nil => simp [applyAll, after, Change.latest]
  | append_singleton cs c ih =>
    rw [after_append, ← ih, applyAll, List.foldl_append]
    rfl

theorem applyAll_filter (s : Spec) (cs : List Change) :
    s.applyAll (cs.filter fun c => ¬c.Refused) = s.applyAll cs := by
  induction cs generalizing s with
  | nil => rfl
  | cons c cs ih =>
    by_cases h : c.Refused
    · rw [List.filter_cons_of_neg (by simpa using h), ih, applyAll, applyAll, List.foldl_cons,
        applyOrKeep_of_refused h]
    · rw [List.filter_cons_of_pos (by simpa using h)]
      exact ih (s.applyOrKeep c)

/-- **A recipe is what its history says.**  Steps and volumes add up in order, each other field is
that of the last change of its kind, and a change is refused if and only if it copies to a path
that is not absolute, which is as good as no change. -/
theorem applyAll_history (s : Spec) (cs : List Change) :
    s.applyAll cs = s.after cs ∧
    (∀ (t : Spec) (c : Change), (∃ e, t.apply c = .error e) ↔ c.Refused) ∧
    s.applyAll (cs.filter fun c => ¬c.Refused) = s.applyAll cs ∧
    ∀ text : String, ∃ front back : List Char,
      text.toList = front ++ (Text.trim text).toList ++ back ∧
      (∀ c ∈ front, Text.isBlank c = true) ∧ (∀ c ∈ back, Text.isBlank c = true) ∧
      (∀ c ∈ (Text.trim text).toList.head?, Text.isBlank c = false) ∧
      ∀ c ∈ (Text.trim text).toList.getLast?, Text.isBlank c = false :=
  ⟨applyAll_eq_after s cs, fun _ _ => exists_apply_eq_error_iff, applyAll_filter s cs,
    Text.exists_eq_append_trim⟩

end Spec

end ImageRecipe
