import ImageRecipe.Proofs.Build.PolicyText

/-!
# Settings from variables

What variables do to settings: a shell that is given is trimmed and taken, a
policy that is given must be one, and blank values count as absent.  Overriding
twice is the same as overriding once by both lookups in `layered`, so a second
time by the same lookup changes nothing.
-/

namespace ImageRecipe.Settings

open Text Policy

variable {lookup : String → Option String} {name : String}

def IsGiven (lookup : String → Option String) (name v : String) : Prop :=
  lookup name = some v ∧ ∃ c ∈ v.toList, isBlank c = false

theorem given_eq_some_iff {v : String} : given lookup name = some v ↔ IsGiven lookup name v := by
  simp [given, IsGiven, Option.filter_eq_some_iff, allBlank]

theorem given_eq_none_iff : given lookup name = none ↔ ∀ v, ¬IsGiven lookup name v := by
  simp only [Option.eq_none_iff_forall_ne_some, ne_eq, given_eq_some_iff]

/-! ### Once -/

/-- The policy that a value names, or the old one where there is no value. -/
def renewed (old : Policy) : Option String → Except Failure Policy
  | some text => Policy.parse text
  | none => .ok old

/-- Only a policy can be refused. -/
theorem override_eq (s : Settings) (lookup : String → Option String) : s.override lookup
    = (renewed s.policy (given lookup policyVariable)).map fun policy =>
      { shell := ((given lookup shellVariable).map trim).getD s.shell, policy,
        quiet := s.quiet } := by
  have hpolicy : ∀ t : Settings, (match given lookup policyVariable with
      | some text => do return { t with policy := ← Policy.parse text }
      | none => return t)
      = (renewed t.policy (given lookup policyVariable)).map fun policy => { t with policy } := by
    intro t
    cases given lookup policyVariable with
    | none => rfl
    | some text =>
      show (do return { t with policy := ← Policy.parse text }) = (Policy.parse text).map _
      cases Policy.parse text <;> rfl
  rw [override]
  cases given lookup shellVariable with
  | none => exact hpolicy s
  | some shell => exact hpolicy { s with shell := trim shell }

theorem map_eq_ok_iff {α β ε : Type} {r : Except ε α} {f : α → β} {y : β} :
    r.map f = .ok y ↔ ∃ x, r = .ok x ∧ f x = y := by
  cases r <;> simp [Except.map]

theorem override_eq_ok_iff {s t : Settings} : s.override lookup = .ok t ↔
    t.shell = ((given lookup shellVariable).map trim).getD s.shell ∧
    renewed s.policy (given lookup policyVariable) = .ok t.policy ∧ t.quiet = s.quiet := by
  rw [override_eq, map_eq_ok_iff]
  constructor
  · rintro ⟨p, hp, rfl⟩
    exact ⟨rfl, hp, rfl⟩
  · rintro ⟨hshell, hpolicy, hquiet⟩
    exact ⟨t.policy, hpolicy, by rw [← hshell, ← hquiet]⟩

theorem override_eq_error_iff {s : Settings} {e : Failure} : s.override lookup = .error e ↔
    ∃ text, IsGiven lookup policyVariable text ∧ (∀ p, ¬Spelled p text) ∧
      e = .unknownPolicy text := by
  have herror : s.override lookup = .error e
      ↔ renewed s.policy (given lookup policyVariable) = .error e := by
    rw [override_eq]
    cases renewed s.policy (given lookup policyVariable) <;> simp [Except.map]
  rw [herror]
  constructor
  · intro h
    cases hgiven : given lookup policyVariable with
    | none =>
      rw [hgiven] at h
      cases h
    | some text =>
      rw [hgiven, renewed] at h
      have hnone : ∀ p, ¬Spelled p text := by
        intro p hp
        rw [parse_eq_ok_iff.mpr hp] at h
        cases h
      rw [parse_eq_error hnone] at h
      exact ⟨text, given_eq_some_iff.mp hgiven, hnone, (Except.error.inj h).symm⟩
  · rintro ⟨text, htext, hnone, rfl⟩
    rw [given_eq_some_iff.mpr htext]
    exact parse_eq_error hnone

/-- A shell that is given is taken without the blanks around it. -/
theorem shell_of_isGiven {s t : Settings} (h : s.override lookup = .ok t) {v : String}
    (hv : IsGiven lookup shellVariable v) : t.shell = trim v := by
  rw [(override_eq_ok_iff.mp h).1, given_eq_some_iff.mpr hv]
  rfl

theorem shell_of_not_isGiven {s t : Settings} (h : s.override lookup = .ok t)
    (hv : ∀ v, ¬IsGiven lookup shellVariable v) : t.shell = s.shell := by
  rw [(override_eq_ok_iff.mp h).1, given_eq_none_iff.mpr hv]
  rfl

theorem spelled_of_isGiven {s t : Settings} (h : s.override lookup = .ok t) {text : String}
    (htext : IsGiven lookup policyVariable text) : Spelled t.policy text := by
  have hpolicy := (override_eq_ok_iff.mp h).2.1
  rw [given_eq_some_iff.mpr htext] at hpolicy
  exact parse_eq_ok_iff.mp hpolicy

theorem policy_of_not_isGiven {s t : Settings} (h : s.override lookup = .ok t)
    (htext : ∀ text, ¬IsGiven lookup policyVariable text) : t.policy = s.policy := by
  have hpolicy := (override_eq_ok_iff.mp h).2.1
  rw [given_eq_none_iff.mpr htext] at hpolicy
  exact (Except.ok.inj hpolicy).symm

/-! ### Twice -/

/-- The values of the second lookup where they are not blank, and those of the first otherwise. -/
def layered (first second : String → Option String) : String → Option String :=
  fun name => (given second name).or (first name)

theorem given_layered (first second : String → Option String) (name : String) :
    given (layered first second) name = (given second name).or (given first name) := by
  cases hsecond : given second name with
  | none =>
    have hlayered : layered first second name = first name := by
      rw [layered, hsecond, Option.none_or]
    rw [given, hlayered]
    rfl
  | some v =>
    have hlayered : layered first second name = some v := by
      rw [layered, hsecond, Option.some_or]
    rw [Option.some_or, given_eq_some_iff]
    exact ⟨hlayered, (given_eq_some_iff.mp hsecond).2⟩

/-- **Overriding twice is overriding once**, by both lookups together, unless the first of them is
refused. -/
theorem override_override {s t : Settings} {first second : String → Option String}
    (h : s.override first = .ok t) : t.override second = s.override (layered first second) := by
  obtain ⟨hshell, hpolicy, hquiet⟩ := override_eq_ok_iff.mp h
  have hlater : ((given second shellVariable).map trim).getD t.shell
      = ((given (layered first second) shellVariable).map trim).getD s.shell := by
    rw [given_layered, hshell]
    cases given second shellVariable <;> rfl
  have hrenewed : renewed t.policy (given second policyVariable)
      = renewed s.policy (given (layered first second) policyVariable) := by
    rw [given_layered]
    cases given second policyVariable with
    | some text => rfl
    | none => exact hpolicy.symm
  rw [override_eq, override_eq, hlater, hrenewed, hquiet]

/-- Only what is given counts. -/
theorem override_congr {first second : String → Option String}
    (h : ∀ name, given first name = given second name) (s : Settings) :
    s.override first = s.override second := by
  rw [override_eq, override_eq, h, h]

theorem override_again (s : Settings) (lookup : String → Option String) :
    (s.override lookup).bind (·.override lookup) = s.override lookup := by
  cases h : s.override lookup with
  | error e => rfl
  | ok t =>
    have hsame : ∀ name, given (layered lookup lookup) name = given lookup name := by
      intro name
      rw [given_layered, Option.or_self]
    exact ((override_override h).trans (override_congr hsame s)).trans h

/-- **What variables do to settings**: when they are refused, what is taken from them, and what
becomes of it when variables are looked up again. -/
theorem override_from_variables (s : Settings) (lookup : String → Option String) :
    ((∃ e, s.override lookup = .error e) ↔
      ∃ text, IsGiven lookup policyVariable text ∧ ∀ p, ¬Spelled p text) ∧
    (∀ e, s.override lookup = .error e → ∃ text message, lookup policyVariable = some text ∧
      e = .config message ∧ text.toList <:+: message.toList) ∧
    (∀ t, s.override lookup = .ok t →
      (∀ v, IsGiven lookup shellVariable v →
        t.shell = trim v ∧ t.shell ≠ "" ∧ Trimmed t.shell) ∧
      ((∀ v, ¬IsGiven lookup shellVariable v) → t.shell = s.shell) ∧
      (∀ text, IsGiven lookup policyVariable text → Spelled t.policy text) ∧
      ((∀ text, ¬IsGiven lookup policyVariable text) → t.policy = s.policy) ∧
      t.quiet = s.quiet) ∧
    (s.override lookup).bind (·.override lookup) = s.override lookup ∧
    ∀ t second, s.override lookup = .ok t →
      t.override second = s.override (layered lookup second) := by
  refine ⟨?_, ?_, fun t h => ⟨?_, shell_of_not_isGiven h, fun _ => spelled_of_isGiven h,
    policy_of_not_isGiven h, (override_eq_ok_iff.mp h).2.2⟩, override_again s lookup,
    fun t second h => override_override h⟩
  · simp only [override_eq_error_iff]
    constructor
    · rintro ⟨_, text, htext, hnone, -⟩
      exact ⟨text, htext, hnone⟩
    · rintro ⟨text, htext, hnone⟩
      exact ⟨_, text, htext, hnone, rfl⟩
  · intro e he
    obtain ⟨text, htext, -, rfl⟩ := override_eq_error_iff.mp he
    obtain ⟨message, hmessage, hquoted⟩ := exists_unknownPolicy_eq text
    exact ⟨text, message, htext.1, hmessage, hquoted⟩
  · intro v hv
    have hshell := shell_of_isGiven h hv
    have hnot : allBlank v = false := by
      obtain ⟨c, hc, hblank⟩ := hv.2
      rw [allBlank, List.all_eq_false]
      exact ⟨c, hc, by simp [hblank]⟩
    rw [hshell]
    exact ⟨rfl, trim_ne_empty hnot, trimmed_trim v⟩

end ImageRecipe.Settings
