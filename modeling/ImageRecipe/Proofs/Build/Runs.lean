import ImageRecipe.Build.Run
import ImageRecipe.Proofs.Build.Lines

/-!
# How runs end

A run hands its lines over in order and ends in one of three ways: all lines
were run, a line failed and the policy is to stop, or a line could not be
started.  Which of them it is depends on the first answer after which the run
does not go on, and on nothing behind it.

`Settings.Progress` is the invariant: what was recorded so far is the answers
to a prefix of the lines, and the run goes on after each of them.
-/

namespace ImageRecipe

/-- The answer to line `i`, given that the lines before it were handed over. -/
def Runner.answer? (runner : Runner) (lines : List String) (i : Nat) :
    Option (Except String Int) :=
  lines[i]?.map (runner (lines.take i))

theorem Runner.answer?_append (runner : Runner) (before : List String) (line : String)
    (rest : List String) :
    runner.answer? (before ++ line :: rest) before.length = some (runner before line) := by
  simp [answer?]

namespace Report

theorem success_iff (r : Report) : r.success = true ↔ r.failures = [] := by
  simp [success, failures]

theorem failures_eq (r : Report) : r.failures = r.steps.filter fun o => o.exitCode ≠ 0 :=
  List.filter_congr fun o _ => by simp [Outcome.success]; rfl

end Report

namespace Settings

def GoesOn (s : Settings) : Except String Int → Prop
  | .ok exitCode => s.policy = .abort → exitCode = 0
  | .error _ => False

/-- The failure of a run that the answer to a line ends. -/
def ending (line : String) : Except String Int → Failure
  | .ok exitCode => .execution line exitCode
  | .error reason => .io reason

/-- The first lines were run with these outcomes, and the run goes on. -/
structure Progress (s : Settings) (runner : Runner) (lines : List String) (done : List Outcome) :
    Prop where
  commands : done.map Outcome.command <+: lines
  answers : ∀ i o, done[i]? = some o →
    runner.answer? lines i = some (.ok o.exitCode) ∧ s.GoesOn (.ok o.exitCode)

variable {s : Settings} {runner : Runner} {lines : List String}

theorem Progress.nil : s.Progress runner lines [] :=
  ⟨List.nil_prefix, by simp⟩

theorem Progress.snoc {done : List Outcome} {line : String} {rest : List String} {exitCode : Int}
    (hp : s.Progress runner lines done) (hl : lines = done.map Outcome.command ++ line :: rest)
    (ha : runner (done.map Outcome.command) line = .ok exitCode) (hg : s.GoesOn (.ok exitCode)) :
    s.Progress runner lines (done ++ [⟨line, exitCode⟩]) := by
  refine ⟨⟨rest, by simp [hl]⟩, ?_⟩
  intro i o ho
  rcases Nat.lt_trichotomy i done.length with hi | rfl | hi
  · rw [List.getElem?_append_left hi] at ho
    exact hp.answers i o ho
  · obtain rfl : (⟨line, exitCode⟩ : Outcome) = o := by simpa using ho
    have hans := runner.answer?_append (done.map Outcome.command) line rest
    rw [← hl, List.length_map, ha] at hans
    exact ⟨hans, hg⟩
  · rw [List.getElem?_eq_none (by simp; omega)] at ho
    cases ho

/-- **The two ways a run ends**: with a report of all lines, or at the first answer after which it
does not go on.  The arguments are the lines that were handed over, and the result. -/
inductive Ends (s : Settings) (runner : Runner) (lines : List String) :
    List String → Except Failure Report → Prop
  | finished {steps : List Outcome} : s.Progress runner lines steps →
    steps.map Outcome.command = lines → Ends s runner lines lines (.ok ⟨steps⟩)
  | stopped {steps : List Outcome} {line : String} {rest : List String} :
    s.Progress runner lines steps → lines = steps.map Outcome.command ++ line :: rest →
    ¬s.GoesOn (runner (steps.map Outcome.command) line) →
    Ends s runner lines (steps.map Outcome.command ++ [line])
      (.error (ending line (runner (steps.map Outcome.command) line)))

theorem runFrom_ends (total : Nat) {done : List Outcome} {rest : List String}
    (hp : s.Progress runner lines done) (hl : lines = done.map Outcome.command ++ rest) :
    s.Ends runner lines (done.map Outcome.command ++ (s.runFrom runner total done rest).handed)
      (s.runFrom runner total done rest).result := by
  induction rest generalizing done with
  | nil =>
    have hdone : done.map Outcome.command = lines := by simp [hl]
    simpa [runFrom, hdone] using Ends.finished hp hdone
  | cons line rest ih =>
    -- an exit code of zero and a forgiven one both extend `done`, with other events
    have goOn : ∀ exitCode, runner (done.map Outcome.command) line = .ok exitCode →
        s.GoesOn (.ok exitCode) → ∀ events, s.runFrom runner total done (line :: rest)
          = (s.runFrom runner total (done ++ [⟨line, exitCode⟩]) rest).after line events →
        s.Ends runner lines
          (done.map Outcome.command ++ (s.runFrom runner total done (line :: rest)).handed)
          (s.runFrom runner total done (line :: rest)).result := by
      intro exitCode ha hg events hrun
      rw [hrun]
      simpa [Run.after] using ih (hp.snoc hl ha hg) (by simp [hl])
    have stop := Ends.stopped hp hl
    cases ha : runner (done.map Outcome.command) line with
    | error reason => simpa [runFrom, ha, GoesOn, ending] using stop
    | ok exitCode =>
      by_cases hzero : exitCode = 0
      · exact goOn exitCode ha (fun _ => hzero) [.runningStep s.quiet (done.length + 1) total line]
          (by simp [runFrom, ha, Outcome.success, hzero])
      · cases hpolicy : s.policy with
        | abort =>
          simpa [runFrom, ha, GoesOn, ending, Outcome.success, hzero, hpolicy] using stop
        | «continue» =>
          exact goOn exitCode ha (by simp [GoesOn, hpolicy])
            [.runningStep s.quiet (done.length + 1) total line,
              .failedStep (done.length + 1) exitCode line]
            (by simp [runFrom, ha, Outcome.success, hzero, hpolicy])

theorem runScript_ends (s : Settings) (runner : Runner) (lines : List String) :
    s.Ends runner lines (s.runScript runner lines).handed (s.runScript runner lines).result :=
  runFrom_ends lines.length Progress.nil rfl

/-! ### Where a run stops -/

def Passed (s : Settings) (runner : Runner) (lines : List String) (k : Nat) : Prop :=
  ∀ i < k, ∃ exitCode, runner.answer? lines i = some (.ok exitCode) ∧
    (s.policy = .abort → exitCode = 0)

/-- Line `k` is the first one after whose answer the run does not go on. -/
structure StopsAt (s : Settings) (runner : Runner) (lines : List String) (k : Nat) (line : String)
    (answer : Except String Int) : Prop where
  passed : s.Passed runner lines k
  line_eq : lines[k]? = some line
  answer_eq : runner.answer? lines k = some answer
  stops : ¬s.GoesOn answer

theorem Progress.passed {steps : List Outcome} (hp : s.Progress runner lines steps) :
    s.Passed runner lines steps.length := by
  intro i hi
  exact ⟨_, hp.answers i steps[i] (List.getElem?_eq_getElem hi)⟩

theorem Passed.mono {k n : Nat} (hn : s.Passed runner lines n) (hk : k ≤ n) :
    s.Passed runner lines k :=
  fun i hi => hn i (Nat.lt_of_lt_of_le hi hk)

theorem StopsAt.lt {k : Nat} {line : String} {answer : Except String Int}
    (h : s.StopsAt runner lines k line answer) : k < lines.length :=
  (List.getElem?_eq_some_iff.mp h.line_eq).1

theorem StopsAt.le_of_passed {k n : Nat} {line : String} {answer : Except String Int}
    (h : s.StopsAt runner lines k line answer) (hn : s.Passed runner lines n) : n ≤ k := by
  by_contra hkn
  obtain ⟨exitCode, ha, hg⟩ := hn k (Nat.lt_of_not_le hkn)
  obtain rfl : answer = .ok exitCode := by simpa [h.answer_eq] using ha
  exact h.stops hg

theorem StopsAt.unique {k n : Nat} {line line' : String} {answer answer' : Except String Int}
    (h : s.StopsAt runner lines k line answer) (h' : s.StopsAt runner lines n line' answer') :
    k = n ∧ line = line' ∧ answer = answer' := by
  obtain rfl : k = n := Nat.le_antisymm (h'.le_of_passed h.passed) (h.le_of_passed h'.passed)
  exact ⟨rfl, by simpa [h.line_eq] using h'.line_eq, by simpa [h.answer_eq] using h'.answer_eq⟩

theorem Ends.passed {steps : List Outcome} {handed : List String}
    (h : s.Ends runner lines handed (.ok ⟨steps⟩)) : handed = lines ∧
      s.Progress runner lines steps ∧ steps.map Outcome.command = lines := by
  cases h with
  | finished hp hlines => exact ⟨rfl, hp, hlines⟩

theorem Ends.exists_stopsAt {handed : List String} {failure : Failure}
    (h : s.Ends runner lines handed (.error failure)) : ∃ k line answer,
      s.StopsAt runner lines k line answer ∧ handed = lines.take (k + 1) ∧
      failure = ending line answer := by
  cases h with
  | @stopped steps line rest hp hlines hstop =>
    subst hlines
    have hanswer := runner.answer?_append (steps.map Outcome.command) line rest
    rw [List.length_map] at hanswer
    refine ⟨steps.length, line, _, ⟨hp.passed, ?_, hanswer, hstop⟩, ?_, rfl⟩
    · rw [List.getElem?_append_right (by simp)]
      simp
    · rw [List.take_append, List.take_of_length_le (by simp)]
      simp

theorem Ends.of_stopsAt {handed : List String} {result : Except Failure Report} {k : Nat}
    {line : String} {answer : Except String Int} (h : s.Ends runner lines handed result)
    (hk : s.StopsAt runner lines k line answer) :
    handed = lines.take (k + 1) ∧ result = .error (ending line answer) := by
  cases result with
  | ok report =>
    obtain ⟨_, hp, hlines⟩ := h.passed
    have hle := hk.le_of_passed hp.passed
    rw [← List.length_map (f := Outcome.command), hlines] at hle
    exact absurd hk.lt (Nat.not_lt_of_le hle)
  | error failure =>
    obtain ⟨n, line', answer', hn, hhanded, rfl⟩ := h.exists_stopsAt
    obtain ⟨rfl, rfl, rfl⟩ := hn.unique hk
    exact ⟨hhanded, rfl⟩

theorem result_eq_error_iff {failure : Failure} :
    (s.runScript runner lines).result = .error failure ↔ ∃ k line answer,
      s.StopsAt runner lines k line answer ∧ failure = ending line answer := by
  have hends := s.runScript_ends runner lines
  constructor
  · intro h
    rw [h] at hends
    obtain ⟨k, line, answer, hk, _, hfailure⟩ := hends.exists_stopsAt
    exact ⟨k, line, answer, hk, hfailure⟩
  · rintro ⟨k, line, answer, hk, rfl⟩
    exact (hends.of_stopsAt hk).2

theorem exists_result_eq_ok_iff : (∃ report, (s.runScript runner lines).result = .ok report) ↔
    s.Passed runner lines (s.runScript runner lines).handed.length := by
  have hends := s.runScript_ends runner lines
  cases hresult : (s.runScript runner lines).result with
  | ok report =>
    rw [hresult] at hends
    obtain ⟨hhanded, hp, hlines⟩ := hends.passed
    rw [hhanded, ← hlines, List.length_map]
    exact iff_of_true ⟨report, rfl⟩ (hlines ▸ hp.passed)
  | error failure =>
    rw [hresult] at hends
    obtain ⟨k, line, answer, hk, hhanded, _⟩ := hends.exists_stopsAt
    rw [hhanded, List.length_take_of_le hk.lt]
    exact iff_of_false (by simp) fun hpassed => absurd (hk.le_of_passed hpassed) (by omega)

theorem result_eq_execution_iff {command : String} {exitCode : Int} :
    (s.runScript runner lines).result = .error (.execution command exitCode) ↔
      s.policy = .abort ∧ exitCode ≠ 0 ∧ ∃ k, (∀ i < k, runner.answer? lines i = some (.ok 0)) ∧
        lines[k]? = some command ∧ runner.answer? lines k = some (.ok exitCode) := by
  rw [result_eq_error_iff]
  constructor
  · rintro ⟨k, line, _ | code, ⟨hpassed, hline, hanswer, hstop⟩, hfailure⟩
    · cases hfailure
    · obtain ⟨rfl, rfl⟩ := Failure.execution.inj hfailure
      obtain ⟨hpolicy, hcode⟩ := Classical.not_imp.mp hstop
      refine ⟨hpolicy, hcode, k, fun i hi => ?_, hline, hanswer⟩
      obtain ⟨earlier, hearlier, hzero⟩ := hpassed i hi
      rw [hearlier, hzero hpolicy]
  · rintro ⟨hpolicy, hcode, k, hzeros, hline, hanswer⟩
    exact ⟨k, command, _, ⟨fun i hi => ⟨0, hzeros i hi, fun _ => rfl⟩, hline, hanswer,
      fun hg => hcode (hg hpolicy)⟩, rfl⟩

theorem result_eq_io_iff {reason : String} :
    (s.runScript runner lines).result = .error (.io reason) ↔
      ∃ k, s.Passed runner lines k ∧ runner.answer? lines k = some (.error reason) := by
  rw [result_eq_error_iff]
  constructor
  · rintro ⟨k, line, _ | code, hk, hfailure⟩
    · obtain rfl := Failure.io.inj hfailure
      exact ⟨k, hk.passed, hk.answer_eq⟩
    · cases hfailure
  · rintro ⟨k, hpassed, hanswer⟩
    obtain ⟨line, hline, _⟩ := Option.map_eq_some_iff.mp hanswer
    exact ⟨k, line, _, ⟨hpassed, hline, hanswer, id⟩, rfl⟩

/-! ### Reports and commits -/

theorem Progress.report_eq {steps : List Outcome} (hp : s.Progress runner lines steps)
    (hlines : steps.map Outcome.command = lines) (i : Nat) :
    steps[i]?.map (fun o => (o.command, Except.ok o.exitCode))
      = lines[i]?.map fun line => (line, runner (lines.take i) line) := by
  cases ho : steps[i]? with
  | none => simp [← hlines, ho]
  | some o =>
    have hline : lines[i]? = some o.command := by rw [← hlines, List.getElem?_map, ho]; rfl
    have hanswer := (hp.answers i o ho).1
    rw [Runner.answer?, hline, Option.map_some, Option.some.injEq] at hanswer
    rw [hline, Option.map_some, Option.map_some, hanswer]

/-- The commit is the last line of a script, and no other line looks like it. -/
theorem commit_notMem (spec : Spec) (image : String) :
    Script.commit spec.identity image ∉ spec.plan.flatMap (Instruction.script spec.identity) := by
  intro h
  obtain ⟨i, _, hi⟩ := List.mem_flatMap.mp h
  obtain ⟨rest, hrest⟩ := i.exists_leading hi
  have hcommit : Script.commit spec.identity image
      = "buildah commit " ++ (spec.identity ++ " " ++ image) := by
    simp only [Script.commit, Script.tool, String.reduceAppend, String.append_assoc]
  have hleading := (Instruction.allLeading_inj i.leading_mem
    (by simp [Instruction.allLeading]) (hrest.symm.trans hcommit)).1
  cases i <;> simp [Instruction.leading] at hleading

/-- The last line is handed over if and only if the run goes on after all lines before it. -/
theorem mem_handed_iff {before : List String} {last : String} (hlast : last ∉ before) :
    last ∈ (s.runScript runner (before ++ [last])).handed ↔
      s.Passed runner (before ++ [last]) before.length := by
  have hends := s.runScript_ends runner (before ++ [last])
  cases hresult : (s.runScript runner (before ++ [last])).result with
  | ok report =>
    rw [hresult] at hends
    obtain ⟨hhanded, hp, hlines⟩ := hends.passed
    have hlength := congrArg List.length hlines
    simp only [List.length_map, List.length_append, List.length_singleton] at hlength
    rw [hhanded]
    exact iff_of_true (by simp) (hp.passed.mono (by omega))
  | error failure =>
    rw [hresult] at hends
    obtain ⟨k, line, answer, hk, hhanded, _⟩ := hends.exists_stopsAt
    have hlt := hk.lt
    rw [List.length_append, List.length_singleton] at hlt
    rw [hhanded]
    constructor
    · intro hmem
      refine hk.passed.mono (Nat.le_of_not_lt fun hkb => hlast ?_)
      rw [List.take_append_of_le_length hkb] at hmem
      exact List.mem_of_mem_take hmem
    · intro hpassed
      have hle := hk.le_of_passed hpassed
      rw [List.take_of_length_le (by simpa using hle)]
      simp

/-- **Runs stop at the first answer that says so.**  Whatever the runner answers, the lines are
handed over in order; a report lists all of them, an error is that of the first line that ends the
run, and no line behind it is handed over.  A build commits only if the run goes on after every
line before the commit. -/
theorem runScript_build_outcome (s : Settings) (runner : Runner) :
    (∀ lines : List String,
      let run := s.runScript runner lines
      run.handed <+: lines ∧
      ((∃ report, run.result = .ok report) ↔ ∀ i < run.handed.length, ∃ exitCode,
        runner.answer? lines i = some (.ok exitCode) ∧ (s.policy = .abort → exitCode = 0)) ∧
      (∀ report, run.result = .ok report → run.handed = lines ∧
        (∀ i, report.steps[i]?.map (fun o => (o.command, Except.ok o.exitCode))
          = lines[i]?.map fun line => (line, runner (lines.take i) line)) ∧
        (report.success = true ↔ report.failures = []) ∧
        report.failures = report.steps.filter fun o => o.exitCode ≠ 0) ∧
      (∀ command exitCode, run.result = .error (.execution command exitCode) ↔
        s.policy = .abort ∧ exitCode ≠ 0 ∧ ∃ k, (∀ i < k, runner.answer? lines i = some (.ok 0)) ∧
          lines[k]? = some command ∧ runner.answer? lines k = some (.ok exitCode)) ∧
      (∀ reason, run.result = .error (.io reason) ↔ ∃ k, (∀ i < k, ∃ exitCode,
          runner.answer? lines i = some (.ok exitCode) ∧ (s.policy = .abort → exitCode = 0)) ∧
          runner.answer? lines k = some (.error reason)) ∧
      ∀ failure, run.result = .error failure → ∃ k line answer,
        s.StopsAt runner lines k line answer ∧ run.handed = lines.take (k + 1) ∧
          failure = ending line answer) ∧
    ∀ (spec : Spec) (image : String), ∃ before,
      spec.script image = before ++ [Script.commit spec.identity image] ∧
      Script.commit spec.identity image ∉ before ∧
      (Script.commit spec.identity image ∈ (s.build runner spec image).handed ↔
        ∀ i < before.length, ∃ exitCode, runner.answer? (spec.script image) i = some (.ok exitCode) ∧
          (s.policy = .abort → exitCode = 0)) := by
  refine ⟨fun lines => ?_, fun spec image =>
    ⟨_, rfl, commit_notMem spec image, mem_handed_iff (commit_notMem spec image)⟩⟩
  intro run
  have hends : s.Ends runner lines run.handed run.result := s.runScript_ends runner lines
  refine ⟨?_, exists_result_eq_ok_iff, ?_, fun _ _ => result_eq_execution_iff,
    fun _ => result_eq_io_iff, ?_⟩
  · cases hresult : run.result with
    | ok report => exact (hresult ▸ hends).passed.1 ▸ List.prefix_rfl
    | error failure =>
      obtain ⟨k, _, _, _, hhanded, _⟩ := (hresult ▸ hends).exists_stopsAt
      exact hhanded ▸ List.take_prefix (k + 1) lines
  · intro report hreport
    obtain ⟨hhanded, hp, hlines⟩ := (hreport ▸ hends).passed
    exact ⟨hhanded, hp.report_eq hlines, report.success_iff, report.failures_eq⟩
  · intro failure hfailure
    exact (hfailure ▸ hends).exists_stopsAt

end Settings

end ImageRecipe
