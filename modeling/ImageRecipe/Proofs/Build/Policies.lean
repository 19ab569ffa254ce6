import ImageRecipe.Proofs.Build.Runs

/-!
# Stopping and going on

One list of lines, one runner and the two policies.  Up to the first line that
ends with an exit code other than zero the two runs cannot be told apart.  At
that line the one stops and the other goes on, so all that the one says can be
read off what the other leaves behind.

`Settings.forks` is this case distinction.  Everything else looks up what the
longer run recorded at the line where the two part.
-/

namespace ImageRecipe

namespace Settings

variable {s t : Settings} {runner : Runner} {lines : List String}

/-! ### Lines that end with zero -/

/-- The first `k` lines end with zero. -/
def Clean (runner : Runner) (lines : List String) (k : Nat) : Prop :=
  ∀ i < k, runner.answer? lines i = some (.ok 0)

/-- Behind a line that ends with zero every run goes on. -/
theorem Clean.passed {k : Nat} (h : Clean runner lines k) : s.Passed runner lines k :=
  fun i hi => ⟨0, h i hi, fun _ => rfl⟩

theorem Passed.clean {k : Nat} (hs : s.policy = .abort) (h : s.Passed runner lines k) :
    Clean runner lines k := by
  intro i hi
  obtain ⟨exitCode, ha, hzero⟩ := h i hi
  rw [ha, hzero hs]

/-- A run that stops at failures and ends with a report has seen none. -/
theorem Progress.success {steps : List Outcome} (hs : s.policy = .abort)
    (hp : s.Progress runner lines steps) : (⟨steps⟩ : Report).success = true := by
  rw [Report.success, List.all_eq_true]
  intro o ho
  obtain ⟨i, hi⟩ := List.getElem?_of_mem ho
  simpa [Outcome.success] using (hp.answers i o hi).2 hs

/-- What a run has recorded does not depend on its settings. -/
theorem Progress.unique {steps steps' : List Outcome} (hp : s.Progress runner lines steps)
    (hp' : t.Progress runner lines steps') (hlines : steps.map Outcome.command = lines)
    (hlines' : steps'.map Outcome.command = lines) : steps = steps' := by
  refine List.ext_getElem? fun i => ?_
  have heq := (hp.report_eq hlines i).trans (hp'.report_eq hlines' i).symm
  refine Option.map_injective ?_ heq
  rintro ⟨command, exitCode⟩ ⟨command', exitCode'⟩ ho
  simpa using ho

/-! ### Where the runs part -/

/-- Why the line at which a run stops ends it: it could not be started, or the policy is to stop and
it failed. -/
theorem StopsAt.cases {k : Nat} {line : String} {answer : Except String Int}
    (h : s.StopsAt runner lines k line answer) : (∃ reason, answer = .error reason) ∨
      ∃ exitCode, answer = .ok exitCode ∧ s.policy = .abort ∧ exitCode ≠ 0 := by
  cases answer with
  | error reason => exact Or.inl ⟨reason, rfl⟩
  | ok exitCode => exact Or.inr ⟨exitCode, rfl, Classical.not_imp.mp h.stops⟩

/-- The two runs hand over the same lines and end alike, or they part at a line that fails. -/
inductive Forks (s t : Settings) (runner : Runner) (lines : List String) : Prop
  | never : (s.runScript runner lines).handed = (t.runScript runner lines).handed →
    (s.runScript runner lines).result = (t.runScript runner lines).result → Forks s t runner lines
  | at (k : Nat) (line : String) (exitCode : Int) :
    s.StopsAt runner lines k line (.ok exitCode) → exitCode ≠ 0 →
    t.Passed runner lines (k + 1) → Forks s t runner lines

/-- **Two runs of the same lines part at a failure or not at all.** -/
theorem forks (hs : s.policy = .abort) (ht : t.policy = .continue) (runner : Runner)
    (lines : List String) : Forks s t runner lines := by
  have hends := s.runScript_ends runner lines
  have hends' := t.runScript_ends runner lines
  cases hresult : (s.runScript runner lines).result with
  | ok report =>
    rw [hresult] at hends
    obtain ⟨hhanded, hp, hlines⟩ := hends.passed
    have hpassed : t.Passed runner lines lines.length := by
      have hclean := (hp.passed.clean hs).passed (s := t)
      rwa [← List.length_map (f := Outcome.command), hlines] at hclean
    cases hresult' : (t.runScript runner lines).result with
    | ok report' =>
      rw [hresult'] at hends'
      obtain ⟨hhanded', hp', hlines'⟩ := hends'.passed
      have heq : report = report' := congrArg Report.mk (hp.unique hp' hlines hlines')
      exact .never (hhanded.trans hhanded'.symm) (by rw [hresult, hresult', heq])
    | error failure =>
      rw [hresult'] at hends'
      obtain ⟨k, _, _, hk, _⟩ := hends'.exists_stopsAt
      exact absurd hk.lt (Nat.not_lt_of_le (hk.le_of_passed hpassed))
  | error failure =>
    rw [hresult] at hends
    obtain ⟨k, line, answer, hk, hhanded, rfl⟩ := hends.exists_stopsAt
    have hpassed : t.Passed runner lines k := (hk.passed.clean hs).passed
    rcases hk.cases with ⟨reason, rfl⟩ | ⟨exitCode, rfl, -, hcode⟩
    · have hk' : t.StopsAt runner lines k line (.error reason) :=
        ⟨hpassed, hk.line_eq, hk.answer_eq, id⟩
      obtain ⟨hhanded', hresult'⟩ := hends'.of_stopsAt hk'
      exact .never (hhanded.trans hhanded'.symm) (hresult.trans hresult'.symm)
    · refine .at k line exitCode hk hcode fun i hi => ?_
      rcases Nat.lt_succ_iff_lt_or_eq.mp hi with hi | rfl
      · exact hpassed i hi
      · exact ⟨exitCode, hk.answer_eq, by simp [ht]⟩

/-! ### What the longer run tells of the shorter one -/

/-- A run that goes on behind line `k` hands over that line and those before it. -/
theorem take_prefix_handed {k : Nat} (h : s.Passed runner lines k) :
    lines.take k <+: (s.runScript runner lines).handed := by
  have hends := s.runScript_ends runner lines
  cases hresult : (s.runScript runner lines).result with
  | ok report =>
    rw [hresult] at hends
    rw [hends.passed.1]
    exact List.take_prefix k lines
  | error failure =>
    rw [hresult] at hends
    obtain ⟨n, _, _, hn, hhanded, _⟩ := hends.exists_stopsAt
    rw [hhanded]
    exact List.take_prefix_take_left (Nat.le_succ_of_le (hn.le_of_passed h))

/-- The report of the longer run has the line at which the shorter one stops behind lines that all
ended with zero. -/
theorem StopsAt.report_split {steps : List Outcome} {k : Nat} {line : String} {exitCode : Int}
    (hs : s.policy = .abort) (hk : s.StopsAt runner lines k line (.ok exitCode))
    (hp : t.Progress runner lines steps) (hlines : steps.map Outcome.command = lines) :
    ∃ before after, steps = before ++ ⟨line, exitCode⟩ :: after ∧
      (∀ o ∈ before, o.exitCode = 0) ∧ before.length = k := by
  have hlength : steps.length = lines.length := by rw [← hlines, List.length_map]
  have hlt : k < steps.length := hlength ▸ hk.lt
  have hanswer : ∀ i o, steps[i]? = some o →
      runner.answer? lines i = some (.ok o.exitCode) := fun i o ho => (hp.answers i o ho).1
  refine ⟨steps.take k, steps.drop (k + 1), ?_, ?_, List.length_take_of_le (Nat.le_of_lt hlt)⟩
  · have hk' : steps[k] = ⟨line, exitCode⟩ := by
      have hcode := hanswer k steps[k] (List.getElem?_eq_getElem hlt)
      have hcommand : lines[k]? = some steps[k].command := by
        rw [← hlines, List.getElem?_map, List.getElem?_eq_getElem hlt, Option.map_some]
      rw [hk.answer_eq, Option.some.injEq, Except.ok.injEq] at hcode
      rw [hk.line_eq, Option.some.injEq] at hcommand
      rw [hcode, hcommand]
    rw [← hk', List.getElem_cons_drop, List.take_append_drop]
  · intro o ho
    obtain ⟨i, hi⟩ := List.getElem?_of_mem ho
    have hik : i < k := by
      by_contra hle
      rw [List.getElem?_take_eq_none (Nat.not_lt.mp hle)] at hi
      cases hi
    rw [List.getElem?_take_of_lt hik] at hi
    have hzero := hk.passed.clean hs i hik
    rw [hanswer i o hi, Option.some.injEq, Except.ok.injEq] at hzero
    exact hzero

theorem failures_append_cons {before : List Outcome} (hbefore : ∀ o ∈ before, o.exitCode = 0)
    {o : Outcome} (ho : o.exitCode ≠ 0) (after : List Outcome) :
    (⟨before ++ o :: after⟩ : Report).failures = o :: (⟨after⟩ : Report).failures := by
  have hnone : before.filter (fun p => !p.success) = [] := by
    rw [List.filter_eq_nil_iff]
    intro p hp
    simp [Outcome.success, hbefore p hp]
  have hfirst : (!o.success) = true := by simpa [Outcome.success] using ho
  rw [Report.failures, List.filter_append, hnone, List.nil_append]
  exact List.filter_cons_of_pos hfirst

theorem handed_extends (hs : s.policy = .abort) (ht : t.policy = .continue) :
    (s.runScript runner lines).handed <+: (t.runScript runner lines).handed := by
  cases forks hs ht runner lines with
  | never hhanded _ => exact hhanded ▸ List.prefix_rfl
  | «at» k line exitCode hk _ hpassed =>
    rw [((s.runScript_ends runner lines).of_stopsAt hk).1]
    exact take_prefix_handed hpassed

theorem result_eq_ok_iff (hs : s.policy = .abort) (ht : t.policy = .continue) (report : Report) :
    (s.runScript runner lines).result = .ok report ↔
      (t.runScript runner lines).result = .ok report ∧ report.success = true := by
  have hends := s.runScript_ends runner lines
  have hends' := t.runScript_ends runner lines
  cases forks hs ht runner lines with
  | never _ hresult =>
    rw [hresult]
    refine ⟨fun h => ⟨h, ?_⟩, And.left⟩
    rw [hresult, h] at hends
    exact hends.passed.2.1.success hs
  | «at» k line exitCode hk hcode _ =>
    rw [(hends.of_stopsAt hk).2]
    refine iff_of_false (by simp) ?_
    rintro ⟨h, hsuccess⟩
    rw [h] at hends'
    obtain ⟨_, hp, hlines⟩ := hends'.passed
    obtain ⟨before, after, hsteps, hbefore, _⟩ := hk.report_split hs hp hlines
    have hsplit := failures_append_cons hbefore (o := ⟨line, exitCode⟩) hcode after
    rw [← hsteps, report.success_iff.mp hsuccess] at hsplit
    cases hsplit

/-- Where the longer run reports failures, the shorter one ends at the first of them. -/
theorem result_of_failures (hs : s.policy = .abort) (ht : t.policy = .continue) {report : Report}
    {first : Outcome} {rest : List Outcome}
    (hresult : (t.runScript runner lines).result = .ok report)
    (hfailures : report.failures = first :: rest) :
    (s.runScript runner lines).result = .error (.execution first.command first.exitCode) ∧
      ∃ before after, report.steps = before ++ first :: after ∧ (∀ o ∈ before, o.success = true) ∧
        (s.runScript runner lines).handed = (before ++ [first]).map Outcome.command := by
  have hends := s.runScript_ends runner lines
  have hends' := t.runScript_ends runner lines
  rw [hresult] at hends'
  obtain ⟨_, hp, hlines⟩ := hends'.passed
  cases forks hs ht runner lines with
  | never _ hsame =>
    have hsuccess := ((result_eq_ok_iff hs ht report).mp (hsame.trans hresult)).2
    rw [report.success_iff, hfailures] at hsuccess
    exact absurd hsuccess (List.cons_ne_nil first rest)
  | «at» k line exitCode hk hcode _ =>
    obtain ⟨before, after, hsteps, hbefore, hlength⟩ := hk.report_split hs hp hlines
    obtain ⟨hhanded, hstop⟩ := hends.of_stopsAt hk
    have hfirst : (⟨line, exitCode⟩ : Outcome) = first := by
      have hsplit := failures_append_cons hbefore (o := ⟨line, exitCode⟩) hcode after
      rw [← hsteps, hfailures] at hsplit
      exact (List.cons.inj hsplit).1.symm
    subst hfirst
    refine ⟨hstop, before, after, hsteps, fun o ho => by simp [Outcome.success, hbefore o ho], ?_⟩
    rw [hhanded, ← hlines, hsteps, ← List.map_take, ← hlength, List.take_length_add_append]
    rfl

/-- Where the longer run meets a line that cannot be started, the shorter one meets it too, unless a
line failed before. -/
theorem result_of_error (hs : s.policy = .abort) (ht : t.policy = .continue) {failure : Failure}
    (hresult : (t.runScript runner lines).result = .error failure) :
    ∃ reason, failure = .io reason ∧
      (Clean runner lines ((t.runScript runner lines).handed.length - 1) →
        (s.runScript runner lines).result = .error (.io reason) ∧
          (s.runScript runner lines).handed = (t.runScript runner lines).handed) ∧
      (¬Clean runner lines ((t.runScript runner lines).handed.length - 1) →
        ∃ k line exitCode, k + 1 < (t.runScript runner lines).handed.length ∧
          Clean runner lines k ∧ lines[k]? = some line ∧
          runner.answer? lines k = some (.ok exitCode) ∧ exitCode ≠ 0 ∧
          (s.runScript runner lines).result = .error (.execution line exitCode) ∧
          (s.runScript runner lines).handed = lines.take (k + 1)) := by
  have hends := s.runScript_ends runner lines
  have hends' := t.runScript_ends runner lines
  rw [hresult] at hends'
  obtain ⟨n, last, answer, hn, hhanded', rfl⟩ := hends'.exists_stopsAt
  have hlength : (t.runScript runner lines).handed.length = n + 1 := by
    rw [hhanded', List.length_take_of_le hn.lt]
  obtain ⟨reason, rfl⟩ : ∃ reason, answer = .error reason := by
    rcases hn.cases with h | ⟨_, _, habort, _⟩
    · exact h
    · rw [ht] at habort
      cases habort
  refine ⟨reason, rfl, ?_⟩
  rw [hlength, Nat.add_sub_cancel]
  cases forks hs ht runner lines with
  | never hhanded hsame =>
    refine ⟨fun _ => ⟨hsame.trans hresult, hhanded⟩, fun hnot => absurd ?_ hnot⟩
    rw [hsame, hresult] at hends
    obtain ⟨k, _, _, hk, hhandedk, _⟩ := hends.exists_stopsAt
    have hkn : k = n := by
      rw [hhanded, hhanded'] at hhandedk
      have hsameLength := congrArg List.length hhandedk
      rw [List.length_take_of_le hn.lt, List.length_take_of_le hk.lt] at hsameLength
      omega
    exact hkn ▸ hk.passed.clean hs
  | «at» k line exitCode hk hcode hpassed =>
    have hkn : k < n := hn.le_of_passed hpassed
    obtain ⟨hhanded, hstop⟩ := hends.of_stopsAt hk
    refine ⟨fun hclean => absurd ?_ hcode, fun _ => ⟨k, line, exitCode, Nat.succ_lt_succ hkn,
      hk.passed.clean hs, hk.line_eq, hk.answer_eq, hcode, hstop, hhanded⟩⟩
    have hzero := hclean k hkn
    rw [hk.answer_eq, Option.some.injEq, Except.ok.injEq] at hzero
    exact hzero

/-- **The policies agree up to the first failure.**  The run that stops hands over a part of what
the run that goes on does, from the start on.  It succeeds exactly when the other one reports no
failure, with the same report; otherwise it ends at the first failure of the other one.  It meets a
line that cannot be started only if nothing failed before. -/
theorem policies_agree_until_failure (s : Settings) (runner : Runner) (lines : List String) :
    let stop := Settings.runScript { s with policy := .abort } runner lines
    let go := Settings.runScript { s with policy := .continue } runner lines
    stop.handed <+: go.handed ∧
    (∀ report, stop.result = .ok report ↔ go.result = .ok report ∧ report.success = true) ∧
    (∀ report first rest, go.result = .ok report → report.failures = first :: rest →
      stop.result = .error (.execution first.command first.exitCode) ∧
      ∃ before after, report.steps = before ++ first :: after ∧
        (∀ o ∈ before, o.success = true) ∧
        stop.handed = (before ++ [first]).map Outcome.command) ∧
    ∀ failure, go.result = .error failure → ∃ reason, failure = .io reason ∧
      (Clean runner lines (go.handed.length - 1) →
        stop.result = .error (.io reason) ∧ stop.handed = go.handed) ∧
      (¬Clean runner lines (go.handed.length - 1) →
        ∃ k line exitCode, k + 1 < go.handed.length ∧ Clean runner lines k ∧
          lines[k]? = some line ∧ runner.answer? lines k = some (.ok exitCode) ∧ exitCode ≠ 0 ∧
          stop.result = .error (.execution line exitCode) ∧ stop.handed = lines.take (k + 1)) :=
  ⟨handed_extends rfl rfl, result_eq_ok_iff rfl rfl, fun _ _ _ => result_of_failures rfl rfl,
    fun _ => result_of_error rfl rfl⟩

end Settings

end ImageRecipe
