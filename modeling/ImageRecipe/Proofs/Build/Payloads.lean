import ImageRecipe.Proofs.Build.DockerfileLines
import ImageRecipe.Proofs.Json.Compact

/-!
# What the outputs hold as JSON

Lists of texts, authors and the values of labels stand in both outputs as JSON,
and reading the JSON gives what the recipe recorded (`Definition.Recorded`).

In a script a list stands between apostrophes, so that the shell takes it for one
word.  JSON has no escape for an apostrophe: one in a text of the list is one in
the line (`Json.apostrophe_mem_stringArray`).  The list is still what stands
between the first apostrophe and the last one, but it is one word for the shell
only if these two are all.
-/

namespace ImageRecipe

/-! ### Apostrophes in JSON -/

namespace Json

theorem apostrophe_mem_escape {c : Char} : '\'' ∈ escape c ↔ c = '\'' := by
  constructor
  · intro h
    rcases escape_cases c with ⟨a, he, _, _, ha⟩ | ⟨he, _⟩ | ⟨he, _⟩ <;> rw [he] at h
    · rcases List.mem_cons.mp h with hslash | h
      · exact absurd hslash (by decide)
      · rw [← List.mem_singleton.mp h] at ha
        cases ha
    · simp only [List.mem_cons] at h
      rcases h with hslash | hletter | hdigit
      · exact absurd hslash (by decide)
      · exact absurd hletter (by decide)
      · obtain ⟨d, hd, hchar⟩ := Number.exists_of_mem_hexDigits hdigit
        -- an apostrophe is not the digit of any number
        have hvalue := Number.digitValue_lower d hd
        rw [← hchar] at hvalue
        exact absurd hvalue (by simp [Number.digitValue])
    · exact (List.mem_singleton.mp h).symm
  · rintro rfl
    decide

theorem apostrophe_mem_quoted {s : List Char} : '\'' ∈ quoted s ↔ '\'' ∈ s := by
  simp [quoted, apostrophe_mem_escape]

theorem apostrophe_mem_array {xs : List (List Char)} :
    '\'' ∈ array (xs.map quoted) ↔ ∃ x ∈ xs, '\'' ∈ x := by
  cases xs with
  | nil => simp [array]
  | cons x xs =>
    rw [array_cons]
    simp [laterItems, apostrophe_mem_quoted]

/-- **JSON has the apostrophes of its texts and no others.** -/
theorem apostrophe_mem_stringArray {xs : List String} :
    '\'' ∈ (stringArray xs).toList ↔ ∃ x ∈ xs, '\'' ∈ x.toList := by
  have hchars : (stringArray xs).toList = array ((xs.map String.toList).map quoted) := by
    rw [stringArray, String.toList_ofList, List.map_map]
    rfl
  rw [hchars, apostrophe_mem_array]
  simp

end Json

/-! ### Dockerfiles -/

/-- An instruction holds something as JSON: what stands before the JSON on the line of the
instruction, and what the definition recorded there. -/
inductive Definition.Recorded (d : Definition) : Instruction → String → Json.Tree → Prop
  | entrypoint {exec : List String} : d.entrypoint = some exec →
    Recorded d (.entrypoint exec) "ENTRYPOINT " (.texts exec)
  | volumes : d.volumes ≠ [] → Recorded d (.volume d.volumes) "VOLUME " (.texts d.volumes)
  | command {exec : List String} : d.command = some exec →
    Recorded d (.cmd exec) "CMD " (.texts exec)
  | author {name : String} : d.author = some name →
    Recorded d (.author name) "LABEL author=" (.string name)
  | label {l : Labels} {key value : String} : d.labels = some l → (key, value) ∈ l.entries →
    Recorded d (.label key value) ("LABEL " ++ key ++ "=") (.string value)

namespace Definition

variable {d : Definition} {i : Instruction} {lead : String} {tree : Json.Tree}

theorem Recorded.mem_trailing (h : d.Recorded i lead tree) : i ∈ d.trailing := by
  cases h with
  | entrypoint h => simp [trailing, h]
  | volumes h => simp [trailing, h]
  | command h => simp [trailing, h]
  | author h => simp [trailing, h]
  | label hl he => simp [trailing, hl, he]

theorem Recorded.keyword_mem (h : d.Recorded i lead tree) :
    i.keyword ∈ ["ENTRYPOINT", "VOLUME", "CMD", "LABEL"] := by
  cases h <;> simp [Instruction.keyword]

/-- **The instructions that hold JSON are those that the definition recorded.** -/
theorem exists_recorded_iff : (∃ lead tree, d.Recorded i lead tree) ↔
    i ∈ d.plan ∧ i.keyword ∈ ["ENTRYPOINT", "VOLUME", "CMD", "LABEL"] := by
  constructor
  · rintro ⟨lead, tree, h⟩
    exact ⟨List.mem_append_right _ h.mem_trailing, h.keyword_mem⟩
  · rintro ⟨hplan, hkeyword⟩
    simp only [plan, trailing, List.cons_append, List.mem_cons, List.mem_append, List.mem_map,
      Option.mem_toList, Option.map_eq_some_iff] at hplan
    rcases hplan with rfl | ⟨s, _, rfl⟩ | ((((⟨port, _, rfl⟩ | ⟨exec, h, rfl⟩) | h) |
      ⟨exec, h, rfl⟩) | ⟨name, h, rfl⟩) | ⟨⟨key, value⟩, h, rfl⟩
    · simp [Instruction.keyword] at hkeyword
    · cases s <;> simp [Instruction.ofStep, Instruction.keyword] at hkeyword
    · simp [Instruction.keyword] at hkeyword
    · exact ⟨_, _, .entrypoint h⟩
    · by_cases hvolumes : d.volumes = []
      · simp [hvolumes] at h
      · obtain rfl : i = .volume d.volumes := by simpa [hvolumes] using h
        exact ⟨_, _, .volumes hvolumes⟩
    · exact ⟨_, _, .command h⟩
    · exact ⟨_, _, .author h⟩
    · cases hl : d.labels with
      | none => simp [hl] at h
      | some l => exact ⟨_, _, .label hl (by simpa [hl] using h)⟩

/-- **Behind what leads to it, a line holds what was recorded.** -/
theorem Recorded.read_line (h : d.Recorded i lead tree) :
    ∃ payload, i.line = lead ++ payload ∧ Json.read payload = (tree, true) := by
  cases h with
  | entrypoint | volumes | command => exact ⟨_, rfl, Json.read_stringArray _⟩
  | author =>
    refine ⟨_, ?_, Json.read_string _⟩
    rw [Instruction.line, Instruction.keyword, Instruction.operand, ← String.append_assoc]
    rfl
  | label =>
    refine ⟨_, ?_, Json.read_string _⟩
    rw [Instruction.line, Instruction.keyword, Instruction.operand]
    simp only [String.append_assoc]
    rfl

end Definition

/-! ### Scripts -/

namespace Text

/-- What stands between the first apostrophe of a text and the last one. -/
def insideApostrophes (s : String) : String :=
  let behind := (s.toList.dropWhile (· ≠ '\'')).tail
  .ofList (behind.reverse.dropWhile (· ≠ '\'')).tail.reverse

theorem dropWhile_append_apostrophe {front : List Char} (h : '\'' ∉ front) (rest : List Char) :
    (front ++ '\'' :: rest).dropWhile (· ≠ '\'') = '\'' :: rest := by
  have hfront : ∀ c ∈ front, (decide (c ≠ '\'')) = true := by
    intro c hc
    rw [decide_eq_true_eq]
    rintro rfl
    exact h hc
  rw [List.dropWhile_append_of_pos hfront, List.dropWhile_cons_of_neg (by decide)]

theorem insideApostrophes_eq {front back : String} (hfront : '\'' ∉ front.toList)
    (hback : '\'' ∉ back.toList) (inside : String) :
    insideApostrophes (front ++ Script.apostrophes inside ++ back) = inside := by
  have hline : (front ++ Script.apostrophes inside ++ back).toList
      = front.toList ++ '\'' :: (inside.toList ++ '\'' :: back.toList) := by
    simp [Script.apostrophes]
  have hreverse : (inside.toList ++ '\'' :: back.toList).reverse
      = back.toList.reverse ++ '\'' :: inside.toList.reverse := by
    simp
  rw [insideApostrophes, hline, dropWhile_append_apostrophe hfront, List.tail_cons, hreverse,
    dropWhile_append_apostrophe (by simpa using hback), List.tail_cons, List.reverse_reverse,
    String.ofList_toList]

/-- The apostrophes around a text and those in it. -/
theorem count_apostrophes {front back : String} (hfront : '\'' ∉ front.toList)
    (hback : '\'' ∉ back.toList) (inside : String) :
    (front ++ Script.apostrophes inside ++ back).toList.count '\''
      = inside.toList.count '\'' + 2 := by
  simp [Script.apostrophes, List.count_eq_zero.mpr hfront, List.count_eq_zero.mpr hback]

end Text

namespace Instruction

theorem apostrophe_notMem_leading (i : Instruction) : '\'' ∉ i.leading.toList := by
  cases i <;> simp [leading]

/-- The line of an entrypoint or a command has its list between two apostrophes. -/
theorem script_exec {i : Instruction} {xs : List String} (h : i = .entrypoint xs ∨ i = .cmd xs)
    (identity : String) : i.script identity
      = [i.leading ++ Script.apostrophes (Json.stringArray xs) ++ (" " ++ identity)] := by
  rcases h with rfl | rfl <;>
    simp only [script, leading, Script.config, Script.tool, String.append_assoc,
      String.reduceAppend]

end Instruction

/-! ### What is recorded is read -/

namespace Spec

/-- **What is written as JSON decodes to what was recorded.**  This holds of lists of texts and of
texts, of which nothing below `U+0020` is written; of all lines of a Dockerfile that hold JSON; and
of a list in a script, which stands between the first apostrophe of its line and the last one.
These two are the only apostrophes of the line if and only if no text of the list has one. -/
theorem json_payloads_decode :
    (∀ (xs : List String) (t : String),
      Json.read (Json.stringArray xs) = (.texts xs, true) ∧
      Json.read (Json.string t) = (.string t, true) ∧
      (∀ c ∈ (Json.stringArray xs).toList, ' ' ≤ c) ∧ ∀ c ∈ (Json.string t).toList, ' ' ≤ c) ∧
    (∀ (s : Spec) (i : Instruction),
      ((∃ lead tree, s.definition.Recorded i lead tree) ↔
        i ∈ s.plan ∧ i.keyword ∈ ["ENTRYPOINT", "VOLUME", "CMD", "LABEL"]) ∧
      ∀ lead tree, s.definition.Recorded i lead tree → i.line ∈ Text.lines s.dockerfile ∧
        ∃ payload, i.line = lead ++ payload ∧ Json.read payload = (tree, true)) ∧
    ∀ (s : Spec) (image : String), '\'' ∉ s.identity.toList →
      ∀ i ∈ s.plan, ∀ xs, i = .entrypoint xs ∨ i = .cmd xs →
        ∃ line ∈ s.script image, i.script s.identity = [line] ∧
          Json.read (Text.insideApostrophes line) = (.texts xs, true) ∧
          (line.toList.count '\'' = 2 ↔ ∀ x ∈ xs, '\'' ∉ x.toList) := by
  refine ⟨fun xs t => ?_, fun s i => ⟨Definition.exists_recorded_iff, ?_⟩, ?_⟩
  · exact ⟨Json.read_stringArray xs, Json.read_string t, fun _ => Json.le_of_mem_stringArray,
      fun _ => Json.le_of_mem_string⟩
  · intro lead tree h
    refine ⟨?_, h.read_line⟩
    rw [lines_dockerfile_eq_append]
    exact List.mem_append_right _ (List.mem_map_of_mem h.mem_trailing)
  · intro s image hidentity i hi xs hexec
    have hlines := Instruction.script_exec hexec s.identity
    have hback : '\'' ∉ (" " ++ s.identity).toList := by simpa using hidentity
    have hscript : i.leading ++ Script.apostrophes (Json.stringArray xs) ++ (" " ++ s.identity)
        ∈ s.script image := by
      refine List.mem_append_left _ (List.mem_flatMap.mpr ⟨i, hi, ?_⟩)
      rw [hlines]
      exact List.mem_singleton_self _
    refine ⟨_, hscript, hlines, ?_, ?_⟩
    · rw [Text.insideApostrophes_eq i.apostrophe_notMem_leading hback]
      exact Json.read_stringArray xs
    · rw [Text.count_apostrophes i.apostrophe_notMem_leading hback, Nat.add_eq_right,
        List.count_eq_zero, Json.apostrophe_mem_stringArray]
      simp

/-- A list with an apostrophe in it decodes all the same, but its line has three of them. -/
theorem json_payloads_decode_apostrophe :
    let s : Spec := ⟨"c0", { entrypoint := some ["it's", "\n"] }⟩
    '\'' ∉ s.identity.toList ∧ .entrypoint ["it's", "\n"] ∈ s.plan ∧
      ∃ line ∈ s.script "i", Json.read (Text.insideApostrophes line)
        = (.texts ["it's", "\n"], true) ∧ line.toList.count '\'' ≠ 2 := by
  intro s
  have hidentity : '\'' ∉ s.identity.toList := by decide
  have hplan : .entrypoint ["it's", "\n"] ∈ s.plan := by decide
  obtain ⟨line, hline, _, hread, hcount⟩ :=
    json_payloads_decode.2.2 s "i" hidentity _ hplan _ (.inl rfl)
  refine ⟨hidentity, hplan, line, hline, hread, ?_⟩
  rw [ne_eq, hcount]
  decide

end Spec

end ImageRecipe
