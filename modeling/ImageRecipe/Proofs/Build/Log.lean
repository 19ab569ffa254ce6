import ImageRecipe.Proofs.Build.Runs

/-!
# What the log of a run tells

A run logs each line that it hands over, and behind it what came of it: nothing
when the line ends with zero or cannot be started, a failure when it ends with
another exit code, and a warning when the run stops there.  So the log can be
read off the lines that were handed over and the answers to them, and it can be
read back: it says how far the run came and how many lines it left out.

`Settings.runFrom_cons` says what one line does to a run, and `Settings.log_runFrom`
follows it along the lines that remain.  Being quiet lowers the level of the
lines about progress and changes nothing else (`Settings.runFrom_withQuiet`).
-/

namespace ImageRecipe

/-! ### Logs -/

structure LogLine where
  level : Level
  message : String
  fields : List (String × Detail)
  deriving DecidableEq, Repr

namespace LogLine

def running (quiet : Bool) (step total : Nat) (command : String) : LogLine :=
  ⟨if quiet then .debug else .info, "Running build step",
    [("step", .number step), ("total", .number total), ("command", .text command)]⟩

def failed (step : Nat) (exitCode : Int) (command : String) : LogLine :=
  ⟨.error, "Error running step",
    [("step", .number step), ("exit_code", .number exitCode), ("command", .text command)]⟩

def aborted (step skipped : Nat) : LogLine :=
  ⟨.warn, "Aborting build after failed step",
    [("step", .number step), ("skipped", .number skipped)]⟩

/-- The line at the level it has in a quiet run, or in one that is not. -/
def withQuiet (quiet : Bool) (l : LogLine) : LogLine :=
  if l.message = "Running build step" then { l with level := if quiet then .debug else .info }
  else l

end LogLine

namespace Event

def shown (e : Event) : LogLine :=
  ⟨e.level, e.message, e.fields⟩

def withQuiet (quiet : Bool) : Event → Event
  | .runningStep _ step total command => .runningStep quiet step total command
  | e => e

theorem shown_withQuiet (quiet : Bool) (e : Event) :
    (e.withQuiet quiet).shown = e.shown.withQuiet quiet := by
  cases e <;> rfl

end Event

namespace Run

def log (r : Run) : List LogLine :=
  r.events.map Event.shown

theorem log_after (line : String) (events : List Event) (rest : Run) :
    (rest.after line events).log = events.map Event.shown ++ rest.log := by
  rw [log, after, List.map_append]
  rfl

def withQuiet (quiet : Bool) (r : Run) : Run :=
  { r with events := r.events.map (Event.withQuiet quiet) }

theorem withQuiet_after (quiet : Bool) (line : String) (events : List Event) (rest : Run) :
    (rest.after line events).withQuiet quiet
      = (rest.withQuiet quiet).after line (events.map (Event.withQuiet quiet)) := by
  rw [withQuiet, after, List.map_append]
  rfl

theorem log_withQuiet (quiet : Bool) (r : Run) :
    (r.withQuiet quiet).log = r.log.map (LogLine.withQuiet quiet) := by
  rw [log, log, withQuiet, List.map_map, List.map_map]
  apply List.map_congr_left
  intro e _
  exact e.shown_withQuiet quiet

end Run

/-- What the log says while a recipe is planned: one line for each step, and one for the plan. -/
def Spec.planLog (s : Spec) : List LogLine :=
  s.definition.steps.mapIdx (fun i step =>
      ⟨.trace, "Planned step", [("index", .number i), ("kind", .text step.kind.name)]⟩)
    ++ [⟨.debug, "Planned build", [("identity", .text s.identity),
      ("instructions", .number s.plan.length), ("steps", .number s.definition.steps.length)]⟩]

theorem Spec.map_shown_planEvents (s : Spec) : s.planEvents.map Event.shown = s.planLog := by
  rw [planEvents, planLog, List.map_append, List.mapIdx_eq_zipIdx_map, List.mapIdx_eq_zipIdx_map,
    List.map_map]
  rfl

namespace Settings

/-- What the log says about line number `step`, when `skipped` lines are left behind it. -/
def lineLog (s : Settings) (step total skipped : Nat) (line : String) :
    Except String Int → List LogLine
  | .error _ => [.running s.quiet step total line]
  | .ok exitCode =>
    .running s.quiet step total line ::
      if exitCode = 0 then []
      else .failed step exitCode line :: if s.policy = .abort then [.aborted step skipped] else []

def lineEvents (s : Settings) (step total : Nat) (line : String) :
    Except String Int → List Event
  | .error _ => [.runningStep s.quiet step total line]
  | .ok exitCode =>
    .runningStep s.quiet step total line ::
      if exitCode = 0 then []
      else .failedStep step exitCode line ::
        if s.policy = .abort then [.aborted step (total - step)] else []

variable {s : Settings} {runner : Runner} {step total : Nat} {line : String}

theorem map_shown_lineEvents (answer : Except String Int) :
    (s.lineEvents step total line answer).map Event.shown
      = s.lineLog step total (total - step) line answer := by
  cases answer with
  | error reason => rfl
  | ok exitCode =>
    rw [lineEvents, lineLog]
    by_cases hzero : exitCode = 0
    · rw [if_pos hzero, if_pos hzero]
      rfl
    · by_cases hpolicy : s.policy = .abort
      · rw [if_neg hzero, if_neg hzero, if_pos hpolicy, if_pos hpolicy]
        rfl
      · rw [if_neg hzero, if_neg hzero, if_neg hpolicy, if_neg hpolicy]
        rfl

theorem lineEvents_withQuiet (quiet : Bool) (answer : Except String Int) :
    Settings.lineEvents { s with quiet } step total line answer
      = (s.lineEvents step total line answer).map (Event.withQuiet quiet) := by
  cases answer with
  | error reason => rfl
  | ok exitCode =>
    rw [lineEvents, lineEvents]
    by_cases hzero : exitCode = 0 <;> by_cases hpolicy : s.policy = .abort <;>
      simp [hzero, hpolicy, Event.withQuiet]

/-! ### Along the lines -/

/-- **What one line does to a run.**  The events of the line say what came of it, and the run goes
on behind it or ends there. -/
theorem runFrom_cons (s : Settings) (total : Nat) (rest : List String) {done : List Outcome}
    {answer : Except String Int} (ha : runner (done.map Outcome.command) line = answer) :
    (∃ exitCode, answer = .ok exitCode ∧ s.GoesOn answer ∧
      s.runFrom runner total done (line :: rest)
        = (s.runFrom runner total (done ++ [⟨line, exitCode⟩]) rest).after line
          (s.lineEvents (done.length + 1) total line answer)) ∨
    (¬s.GoesOn answer ∧ s.runFrom runner total done (line :: rest)
      = ⟨[line], s.lineEvents (done.length + 1) total line answer,
        .error (ending line answer)⟩) := by
  cases answer with
  | error reason =>
    refine .inr ⟨id, ?_⟩
    simp [runFrom, ha, lineEvents, ending]
  | ok exitCode =>
    by_cases hzero : exitCode = 0
    · refine .inl ⟨exitCode, rfl, fun _ => hzero, ?_⟩
      simp [runFrom, ha, lineEvents, Outcome.success, hzero]
    · cases hpolicy : s.policy with
      | abort =>
        refine .inr ⟨fun hgoes => hzero (hgoes hpolicy), ?_⟩
        simp [runFrom, ha, lineEvents, ending, Outcome.success, hzero, hpolicy]
      | «continue» =>
        refine .inl ⟨exitCode, rfl, by simp [GoesOn, hpolicy], ?_⟩
        simp [runFrom, ha, lineEvents, Outcome.success, hzero, hpolicy]

/-- **The log follows the lines that are handed over**, whatever was done before them. -/
theorem log_runFrom {lines rest : List String} (done : List Outcome)
    (hl : lines = done.map Outcome.command ++ rest) :
    (s.runFrom runner lines.length done rest).log
      = ((s.runFrom runner lines.length done rest).handed.zipIdx done.length).flatMap
        fun (line, i) => s.lineLog (i + 1) lines.length (lines.length - (i + 1)) line
          (runner (lines.take i) line) := by
  induction rest generalizing done with
  | nil => rfl
  | cons line rest ih =>
    have hbefore : lines.take done.length = done.map Outcome.command := by
      rw [hl, ← List.length_map (f := Outcome.command), List.take_left]
    rcases s.runFrom_cons lines.length rest (Eq.refl (runner (done.map Outcome.command) line))
      with ⟨exitCode, _, _, hrun⟩ | ⟨_, hrun⟩
    · have hrest := ih (done ++ [⟨line, exitCode⟩]) (by simp [hl])
      rw [List.length_append, List.length_singleton] at hrest
      rw [hrun, Run.log_after, map_shown_lineEvents, hrest, Run.after, List.zipIdx_cons,
        List.flatMap_cons]
      simp only [hbefore]
    · rw [hrun, Run.log, map_shown_lineEvents, List.zipIdx_cons, List.zipIdx_nil,
        List.flatMap_singleton]
      simp only [hbefore]

/-- **Being quiet changes the level of the lines about progress**, and nothing else of a run. -/
theorem runFrom_withQuiet (quiet : Bool) (total : Nat) (done : List Outcome) (rest : List String) :
    Settings.runFrom { s with quiet } runner total done rest
      = (s.runFrom runner total done rest).withQuiet quiet := by
  induction rest generalizing done with
  | nil => rfl
  | cons line rest ih =>
    have hanswer := Eq.refl (runner (done.map Outcome.command) line)
    have hquiet := Settings.runFrom_cons { s with quiet } total rest hanswer
    rw [lineEvents_withQuiet] at hquiet
    rcases s.runFrom_cons total rest hanswer with ⟨exitCode, ha, hgoes, hrun⟩ | ⟨hstops, hrun⟩
    · rcases hquiet with ⟨exitCode', ha', _, hrun'⟩ | ⟨hstops', _⟩
      · obtain rfl : exitCode = exitCode' := Except.ok.inj (ha.symm.trans ha')
        rw [hrun, hrun', ih, Run.withQuiet_after]
      · exact absurd hgoes hstops'
    · rcases hquiet with ⟨_, _, hgoes', _⟩ | ⟨_, hrun'⟩
      · exact absurd hgoes' hstops
      · rw [hrun, hrun']
        rfl

theorem build_withQuiet (quiet : Bool) (s : Settings) (runner : Runner) (spec : Spec)
    (image : String) : Settings.build { s with quiet } runner spec image
      = (s.build runner spec image).withQuiet quiet := by
  have hplan : spec.planEvents.map (Event.withQuiet quiet) = spec.planEvents := by
    refine (List.map_congr_left ?_).trans (List.map_id _)
    intro e he
    rcases List.mem_append.mp he with he | he
    · obtain ⟨i, _, rfl⟩ := List.mem_mapIdx.mp he
      rfl
    · rw [List.mem_singleton.mp he]
      rfl
  rw [build, build, runScript, runScript, runFrom_withQuiet, Run.withQuiet, Run.withQuiet,
    List.map_append, hplan]

/-! ### Where the warning stands -/

/-- The lines that are left out stand behind those that are handed over. -/
theorem exists_skipped (s : Settings) (runner : Runner) (lines : List String) :
    ∃ skipped, lines = (s.runScript runner lines).handed ++ skipped := by
  have hends := s.runScript_ends runner lines
  cases hresult : (s.runScript runner lines).result with
  | ok report =>
    rw [hresult] at hends
    exact ⟨[], by rw [hends.passed.1, List.append_nil]⟩
  | error failure =>
    rw [hresult] at hends
    obtain ⟨k, _, _, _, hhanded, _⟩ := hends.exists_stopsAt
    exact ⟨lines.drop (k + 1), by rw [hhanded, List.take_append_drop]⟩

/-- A line that fails under the policy to stop is the last one that is handed over. -/
theorem eq_length_handed_of_failed {lines : List String} {i : Nat} {exitCode : Int}
    (hi : i < (s.runScript runner lines).handed.length)
    (hanswer : runner.answer? lines i = some (.ok exitCode)) (hcode : exitCode ≠ 0)
    (hpolicy : s.policy = .abort) : i + 1 = (s.runScript runner lines).handed.length := by
  -- the run does not go on behind line `i`
  have hbound : ∀ {n}, s.Passed runner lines n → n ≤ i := by
    intro n hpassed
    by_contra hlt
    obtain ⟨code, hok, hzero⟩ := hpassed i (Nat.lt_of_not_le hlt)
    rw [hanswer, Option.some.injEq, Except.ok.injEq] at hok
    exact hcode (hok.trans (hzero hpolicy))
  have hends := s.runScript_ends runner lines
  cases hresult : (s.runScript runner lines).result with
  | ok report =>
    rw [hresult] at hends
    obtain ⟨hhanded, hp, hlines⟩ := hends.passed
    have hle := hbound hp.passed
    rw [← List.length_map (f := Outcome.command), hlines, ← hhanded] at hle
    omega
  | error failure =>
    rw [hresult] at hends
    obtain ⟨k, _, _, hk, hhanded, _⟩ := hends.exists_stopsAt
    have hle := hbound hk.passed
    rw [hhanded, List.length_take_of_le hk.lt] at hi ⊢
    omega

/-- The number of lines left out shows only where the run stops at a failed line. -/
theorem lineLog_congr {answer : Except String Int} {m n : Nat}
    (h : ∀ exitCode, answer = .ok exitCode → exitCode ≠ 0 → s.policy = .abort → m = n) :
    s.lineLog step total m line answer = s.lineLog step total n line answer := by
  cases answer with
  | error reason => rfl
  | ok exitCode =>
    rw [lineLog, lineLog]
    by_cases hzero : exitCode = 0
    · rw [if_pos hzero, if_pos hzero]
    · by_cases hpolicy : s.policy = .abort
      · rw [h exitCode rfl hzero hpolicy]
      · rw [if_neg hpolicy, if_neg hpolicy]

theorem log_runScript {lines skipped : List String}
    (hl : lines = (s.runScript runner lines).handed ++ skipped) :
    (s.runScript runner lines).log
      = (s.runScript runner lines).handed.zipIdx.flatMap fun (line, i) =>
        s.lineLog (i + 1) lines.length skipped.length line (runner (lines.take i) line) := by
  have hlength : lines.length = (s.runScript runner lines).handed.length + skipped.length := by
    rw [← List.length_append, ← hl]
  have hfollows : (s.runScript runner lines).log
      = (s.runScript runner lines).handed.zipIdx.flatMap fun (line, i) =>
        s.lineLog (i + 1) lines.length (lines.length - (i + 1)) line
          (runner (lines.take i) line) := log_runFrom [] (List.nil_append lines).symm
  rw [hfollows]
  apply List.flatMap_congr
  rintro ⟨line, i⟩ hmem
  apply lineLog_congr
  intro exitCode ha hcode hpolicy
  obtain ⟨hi, hline⟩ := List.mem_zipIdx' hmem
  have hanswer : runner.answer? lines i = some (.ok exitCode) := by
    have hget : lines[i]? = some line := by
      rw [hl, List.getElem?_append_left hi, List.getElem?_eq_getElem hi]
      exact congrArg some hline.symm
    rw [Runner.answer?, hget, Option.map_some, ha]
  have hlast := eq_length_handed_of_failed hi hanswer hcode hpolicy
  omega

/-! ### The whole log -/

/-- **The log tells exactly what happened.**  For each line that is handed over there is what
`lineLog` says, in order, where the warning counts the lines that are never handed over; it stands
at the last line only, and its two numbers make up the total.  A build logs its plan before.  Being
quiet lowers the level of the lines about progress, and changes neither the lines that run nor the
result nor the rest of the log. -/
theorem runScript_build_log (s : Settings) (runner : Runner) :
    (∀ lines : List String,
      let run := s.runScript runner lines
      ∃ skipped, lines = run.handed ++ skipped ∧
        run.log = run.handed.zipIdx.flatMap (fun (line, i) =>
          s.lineLog (i + 1) lines.length skipped.length line (runner (lines.take i) line)) ∧
        ∀ i < run.handed.length, ∀ exitCode, runner.answer? lines i = some (.ok exitCode) →
          exitCode ≠ 0 → s.policy = .abort →
          i + 1 = run.handed.length ∧ i + 1 + skipped.length = lines.length) ∧
    (∀ (spec : Spec) (image : String), (s.build runner spec image).log
      = spec.planLog ++ (s.runScript runner (spec.script image)).log) ∧
    ∀ quiet,
      let t : Settings := { s with quiet }
      (∀ lines, (t.runScript runner lines).handed = (s.runScript runner lines).handed ∧
        (t.runScript runner lines).result = (s.runScript runner lines).result ∧
        (t.runScript runner lines).log
          = (s.runScript runner lines).log.map (LogLine.withQuiet quiet)) ∧
      ∀ spec image, (t.build runner spec image).handed = (s.build runner spec image).handed ∧
        (t.build runner spec image).result = (s.build runner spec image).result ∧
        (t.build runner spec image).log
          = (s.build runner spec image).log.map (LogLine.withQuiet quiet) := by
  refine ⟨fun lines => ?_, fun spec image => ?_,
    fun quiet => ⟨fun lines => ?_, fun spec image => ?_⟩⟩
  · obtain ⟨skipped, hskipped⟩ := s.exists_skipped runner lines
    have hlength : lines.length = (s.runScript runner lines).handed.length + skipped.length := by
      rw [← List.length_append, ← hskipped]
    refine ⟨skipped, hskipped, log_runScript hskipped, ?_⟩
    intro i hi exitCode hanswer hcode hpolicy
    have hlast := eq_length_handed_of_failed hi hanswer hcode hpolicy
    exact ⟨hlast, by omega⟩
  · rw [Run.log, build, List.map_append, spec.map_shown_planEvents]
    rfl
  · have hrun : Settings.runScript { s with quiet } runner lines
        = (s.runScript runner lines).withQuiet quiet := runFrom_withQuiet quiet _ _ _
    rw [hrun]
    exact ⟨rfl, rfl, Run.log_withQuiet quiet _⟩
  · rw [build_withQuiet]
    exact ⟨rfl, rfl, Run.log_withQuiet quiet _⟩

/-- Of three lines the second one fails: it is the last one in the log, and one is left out. -/
theorem runScript_build_log_abort :
    let s : Settings := { policy := .abort }
    let runner : Runner := fun _ line => .ok (if line = "false" then 1 else 0)
    let lines := ["true", "false", "true"]
    let run := s.runScript runner lines
    (1 < run.handed.length ∧ runner.answer? lines 1 = some (.ok 1)) ∧
      run.log = [.running false 1 3 "true", .running false 2 3 "false", .failed 2 1 "false",
        .aborted 2 1] ∧ run.handed.length = 2 := by
  intro s runner lines run
  have hhanded : run.handed = ["true", "false"] := by decide
  have hanswer : runner.answer? lines 1 = some (.ok 1) := by decide
  have hlt : 1 < run.handed.length := by simp [hhanded]
  obtain ⟨skipped, hlines, hlog, hfailed⟩ := (runScript_build_log s runner).1 lines
  have hskipped : skipped = ["true"] := by
    rw [hhanded] at hlines
    simpa [lines] using hlines.symm
  obtain ⟨hlast, _⟩ := hfailed 1 hlt 1 hanswer (by decide) rfl
  refine ⟨⟨hlt, hanswer⟩, ?_, hlast.symm⟩
  rw [hlog, hhanded, hskipped]
  decide

end Settings

end ImageRecipe
