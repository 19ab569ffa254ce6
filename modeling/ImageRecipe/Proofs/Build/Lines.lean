import ImageRecipe.Build.Dockerfile
import ImageRecipe.Build.Script
import ImageRecipe.Proofs.Json.Strings

/-!
# What a written instruction tells

`Instruction.line_inj` and `Instruction.script_inj` say that the text of an
instruction tells the instruction, in a Dockerfile and in a script.  Both ask
for tidy instructions: where texts stand side by side, the first one must not
hold the character that ends it.

A Dockerfile line is told apart by its keyword, a script line by its first
words, `leading`: none of these is the start of another, whatever follows.  A
script has a line for each volume, so `parts` cuts an instruction into those
that take one line, and `join` puts volumes together again.
-/

namespace ImageRecipe

/-- The first place of a character splits a text in one way only. -/
theorem append_cons_inj {c : Char} : ∀ {a b x y : List Char}, c ∉ a → c ∉ b →
    a ++ c :: x = b ++ c :: y → a = b ∧ x = y
  | [], [], _, _, _, _, h => ⟨rfl, (List.cons.inj h).2⟩
  | [], d :: _, _, _, _, hb, h => by
    obtain ⟨rfl, _⟩ := List.cons.inj h
    exact absurd List.mem_cons_self hb
  | d :: _, [], _, _, ha, _, h => by
    obtain ⟨rfl, _⟩ := List.cons.inj h
    exact absurd List.mem_cons_self ha
  | d :: a, e :: b, _, _, ha, hb, h => by
    obtain ⟨rfl, hr⟩ := List.cons.inj h
    obtain ⟨rfl, hxy⟩ := append_cons_inj (fun hc => ha (List.mem_cons_of_mem _ hc))
      (fun hc => hb (List.mem_cons_of_mem _ hc)) hr
    exact ⟨rfl, hxy⟩

theorem decimal_toNat_inj {p q : UInt16}
    (h : String.ofList (Number.decimal p.toNat) = String.ofList (Number.decimal q.toNat)) : p = q :=
  UInt16.toNat_inj.mp (Number.decimal_injective (String.ofList_inj.mp h))

namespace Instruction

/-- Written on a line, the texts of the instruction stay on the line and do not run into each
other.  Lists, authors and the values of labels may be anything, for they are written as JSON. -/
def Tidy : Instruction → Prop
  | .from image => '\n' ∉ image.toList
  | .run command => '\n' ∉ command.toList
  | .env key value => '\n' ∉ key.toList ∧ '\n' ∉ value.toList ∧ '=' ∉ key.toList
  | .user id => '\n' ∉ id.toList
  | .copy src dst => '\n' ∉ src.toList ∧ '\n' ∉ dst.toList ∧ ' ' ∉ src.toList
  | .workdir path => '\n' ∉ path.toList
  | .label key _ => key ∈ [Labels.authorsKey, Labels.versionKey, Labels.descriptionKey]
  | _ => True

/-! ### Dockerfile lines -/

theorem toList_line (i : Instruction) :
    i.line.toList = i.keyword.toList ++ ' ' :: i.operand.toList := by
  simp [line]

theorem space_notMem_keyword (i : Instruction) : ' ' ∉ i.keyword.toList := by
  cases i <;> simp [keyword]

theorem newline_notMem_keyword (i : Instruction) : '\n' ∉ i.keyword.toList := by
  cases i <;> simp [keyword]

theorem newline_notMem_string (s : String) : '\n' ∉ (Json.string s).toList :=
  fun h => absurd (Json.le_of_mem_string h) (by decide)

theorem newline_notMem_stringArray (xs : List String) : '\n' ∉ (Json.stringArray xs).toList :=
  fun h => absurd (Json.le_of_mem_stringArray h) (by decide)

theorem newline_notMem_decimal (n : Nat) : '\n' ∉ Number.decimal n :=
  fun h => absurd (Number.isDigit_of_mem_decimal h) (by decide)

theorem key_of_tidy {key value : String} (h : (label key value).Tidy) :
    '\n' ∉ key.toList ∧ '=' ∉ key.toList ∧ key ≠ "author" := by
  simp only [Tidy, List.mem_cons, List.not_mem_nil, or_false] at h
  rcases h with rfl | rfl | rfl <;> decide

theorem Tidy.newline_notMem_operand {i : Instruction} (h : i.Tidy) : '\n' ∉ i.operand.toList := by
  cases i with
  | «from» | run | user | workdir => exact h
  | env key value => simpa [operand] using ⟨h.1, h.2.1⟩
  | copy src dst => simpa [operand] using ⟨h.1, h.2.1⟩
  | expose port => simpa [operand] using newline_notMem_decimal _
  | entrypoint | volume | cmd => exact newline_notMem_stringArray _
  | author name => simpa [operand] using newline_notMem_string name
  | label key value => simpa [operand] using ⟨(key_of_tidy h).1, newline_notMem_string value⟩

theorem Tidy.newline_notMem_line {i : Instruction} (h : i.Tidy) : '\n' ∉ i.line.toList := by
  rw [toList_line]
  simpa using ⟨i.newline_notMem_keyword, h.newline_notMem_operand⟩

/-- **A Dockerfile line tells its instruction.** -/
theorem line_inj {i j : Instruction} (hi : i.Tidy) (hj : j.Tidy) (h : i.line = j.line) : i = j := by
  have hl : i.keyword.toList ++ ' ' :: i.operand.toList
      = j.keyword.toList ++ ' ' :: j.operand.toList := by
    rw [← toList_line, ← toList_line, h]
  obtain ⟨hk, ho⟩ := append_cons_inj i.space_notMem_keyword j.space_notMem_keyword hl
  replace hk := String.toList_inj.mp hk
  replace ho := String.toList_inj.mp ho
  cases i <;> cases j <;> simp [keyword] at hk
  case from.from | run.run | user.user | workdir.workdir => exact congrArg _ ho
  case env.env =>
    have he := congrArg String.toList ho
    simp only [operand, String.toList_append, List.append_assoc] at he
    obtain ⟨hkey, hvalue⟩ := append_cons_inj hi.2.2 hj.2.2 he
    rw [String.toList_inj.mp hkey, String.toList_inj.mp hvalue]
  case copy.copy =>
    have he := congrArg String.toList ho
    simp only [operand, String.toList_append, List.append_assoc] at he
    obtain ⟨hsrc, hdst⟩ := append_cons_inj hi.2.2 hj.2.2 he
    rw [String.toList_inj.mp hsrc, String.toList_inj.mp hdst]
  case expose.expose => exact congrArg _ (decimal_toNat_inj ho)
  case entrypoint.entrypoint | volume.volume | cmd.cmd =>
    exact congrArg _ (Json.stringArray_injective ho)
  case author.author =>
    exact congrArg _ (Json.string_injective (by simpa [operand] using ho))
  case label.label =>
    have he := congrArg String.toList ho
    simp only [operand, String.toList_append, List.append_assoc] at he
    obtain ⟨hkey, hvalue⟩ := append_cons_inj (key_of_tidy hi).2.1 (key_of_tidy hj).2.1 he
    rw [String.toList_inj.mp hkey, Json.string_injective (String.toList_inj.mp hvalue)]
  case author.label =>
    have he := congrArg String.toList ho
    simp only [operand, String.toList_append, List.append_assoc] at he
    obtain ⟨hkey, _⟩ := append_cons_inj (a := "author".toList) (by decide) (key_of_tidy hj).2.1 he
    exact absurd (String.toList_inj.mp hkey).symm (key_of_tidy hj).2.2
  case label.author =>
    have he := congrArg String.toList ho
    simp only [operand, String.toList_append, List.append_assoc] at he
    obtain ⟨hkey, _⟩ := append_cons_inj (b := "author".toList) (key_of_tidy hi).2.1 (by decide) he
    exact absurd (String.toList_inj.mp hkey) (key_of_tidy hi).2.2

/-! ### Script lines -/

/-- What the script lines of an instruction start with, up to the first text of the recipe. -/
def leading : Instruction → String
  | .from _ => "buildah from --name "
  | .run _ => "buildah run "
  | .env _ _ => "buildah config --env "
  | .user _ => "buildah config --user "
  | .copy _ _ => "export MNT=$(buildah mount "
  | .workdir _ => "buildah config --workingdir "
  | .expose _ => "buildah config --port "
  | .entrypoint _ => "buildah config --entrypoint "
  | .volume _ => "buildah config --volume "
  | .cmd _ => "buildah config --cmd "
  | .author _ => "buildah config --author "
  | .label _ _ => "buildah config --label "

/-- The leading words of all instructions, and those of a commit. -/
def allLeading : List String :=
  ["buildah from --name ", "buildah run ", "buildah config --env ", "buildah config --user ",
    "export MNT=$(buildah mount ", "buildah config --workingdir ", "buildah config --port ",
    "buildah config --entrypoint ", "buildah config --volume ", "buildah config --cmd ",
    "buildah config --author ", "buildah config --label ", "buildah commit "]

theorem leading_mem (i : Instruction) : i.leading ∈ allLeading := by
  cases i <;> simp [leading, allLeading]

/-- **No leading words are the start of others.** -/
theorem allLeading_prefixFree : ∀ a ∈ allLeading, ∀ b ∈ allLeading,
    a.toList <+: b.toList → a = b := by
  decide

theorem allLeading_inj {a b x y : String} (ha : a ∈ allLeading) (hb : b ∈ allLeading)
    (h : a ++ x = b ++ y) : a = b ∧ x = y := by
  have hl : a.toList ++ x.toList = b.toList ++ y.toList := by
    simpa using congrArg String.toList h
  have hab : a = b := by
    rcases List.prefix_or_prefix_of_prefix (hl ▸ List.prefix_append a.toList x.toList)
      (List.prefix_append b.toList y.toList) with hp | hp
    · exact allLeading_prefixFree a ha b hb hp
    · exact (allLeading_prefixFree b hb a ha hp).symm
  subst hab
  exact ⟨rfl, String.toList_inj.mp (List.append_cancel_left hl)⟩

theorem exists_leading {identity line : String} (i : Instruction) (h : line ∈ i.script identity) :
    ∃ rest, line = i.leading ++ rest := by
  cases i
  case volume paths =>
    obtain ⟨path, _, rfl⟩ := List.mem_map.mp h
    exact ⟨_, by simp only [Script.config, Script.tool, leading, String.reduceAppend,
      String.append_assoc]; rfl⟩
  all_goals
    rw [script, List.mem_singleton] at h
    subst h
    exact ⟨_, by simp only [Script.config, Script.tool, leading, String.reduceAppend,
      String.append_assoc]; rfl⟩

def Single (i : Instruction) : Prop :=
  ∀ paths, i = .volume paths → ∃ path, paths = [path]

theorem Single.exists_script_eq {i : Instruction} (h : i.Single) (identity : String) :
    ∃ line, i.script identity = [line] := by
  cases i
  case volume paths =>
    obtain ⟨path, rfl⟩ := h paths rfl
    exact ⟨_, rfl⟩
  all_goals exact ⟨_, rfl⟩

theorem config_inj {option value value' identity : String}
    (h : Script.config option value identity = Script.config option value' identity) :
    value = value' := by
  simpa [Script.config, String.append_left_inj, String.append_right_inj] using h

theorem apostrophes_inj {s t : String} (h : Script.apostrophes s = Script.apostrophes t) :
    s = t := by
  simpa [Script.apostrophes, String.append_left_inj, String.append_right_inj] using h

/-- **A script line tells its instruction**, when the container is known. -/
theorem script_inj {identity : String} {i j : Instruction} (hi : i.Tidy) (hj : j.Tidy)
    (si : i.Single) (sj : j.Single) (h : i.script identity = j.script identity) : i = j := by
  -- the fixed text that a line starts with leaves one case for each kind
  have hl : i.leading = j.leading := by
    obtain ⟨line, hline⟩ := si.exists_script_eq identity
    have hi : line ∈ i.script identity := by simp [hline]
    obtain ⟨x, hx⟩ := i.exists_leading hi
    obtain ⟨y, hy⟩ := j.exists_leading (h ▸ hi)
    exact (allLeading_inj i.leading_mem j.leading_mem (hx.symm.trans hy)).1
  cases i <;> cases j <;> simp [leading] at hl <;> simp only [script] at h
  case from.from | run.run => simpa [String.append_right_inj] using h
  case user.user | workdir.workdir =>
    exact congrArg _ (config_inj (List.singleton_inj.mp h))
  case env.env =>
    have he := congrArg String.toList (config_inj (List.singleton_inj.mp h))
    simp only [String.toList_append, List.append_assoc] at he
    obtain ⟨hkey, hvalue⟩ := append_cons_inj hi.2.2 hj.2.2 he
    rw [String.toList_inj.mp hkey, String.toList_inj.mp hvalue]
  case copy.copy src dst src' dst' =>
    have he : src.toList ++ ' ' :: ("$MNT/" ++ dst).toList
        = src'.toList ++ ' ' :: ("$MNT/" ++ dst').toList := by
      simpa [String.append_assoc] using congrArg String.toList (List.singleton_inj.mp h)
    obtain ⟨hsrc, hdst⟩ := append_cons_inj hi.2.2 hj.2.2 he
    rw [String.toList_inj.mp hsrc, (String.append_right_inj _).mp (String.toList_inj.mp hdst)]
  case expose.expose =>
    exact congrArg _ (decimal_toNat_inj (config_inj (List.singleton_inj.mp h)))
  case entrypoint.entrypoint | cmd.cmd =>
    exact congrArg _ (Json.stringArray_injective
      (apostrophes_inj (config_inj (List.singleton_inj.mp h))))
  case volume.volume paths paths' =>
    obtain ⟨path, rfl⟩ := si paths rfl
    obtain ⟨path', rfl⟩ := sj paths' rfl
    rw [apostrophes_inj (config_inj (List.singleton_inj.mp h))]
  case author.author =>
    exact congrArg _ (Json.string_injective (config_inj (List.singleton_inj.mp h)))
  case label.label =>
    have he := congrArg String.toList (config_inj (List.singleton_inj.mp h))
    simp only [String.toList_append, List.append_assoc] at he
    obtain ⟨hkey, hvalue⟩ := append_cons_inj (key_of_tidy hi).2.1 (key_of_tidy hj).2.1 he
    rw [String.toList_inj.mp hkey, Json.string_injective (String.toList_inj.mp hvalue)]

end Instruction

end ImageRecipe
