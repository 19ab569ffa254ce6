import ImageRecipe.Build.Settings
import ImageRecipe.Proofs.Text.Lower
import ImageRecipe.Proofs.Text.Trim

/-!
# Texts that name a policy

`Policy.Spelled` says which texts name a policy, without lowering and without
trimming them: blanks, the word in ASCII letters of either case, blanks.
`Policy.parse` reads just these.  The full lower case of Unicode adds no other
spelling, since neither word has a `k` in it.
-/

namespace ImageRecipe.Policy

open Text

/-- A text that names a policy: its word in letters of either case, with blanks around it. -/
def Spelled (p : Policy) (text : String) : Prop :=
  ∃ front word back : List Char, text.toList = front ++ word ++ back ∧
    (∀ c ∈ front, isBlank c = true) ∧ (∀ c ∈ back, isBlank c = true) ∧
    word.map Char.toLower = p.name.toList

theorem isPlainWord_name (p : Policy) : IsPlainWord p.name.toList := by
  have hall : p.name.toList.all (fun c => c.toNat < 0x80 && c != 'k') = true := by
    cases p <;> decide
  intro c hc
  simpa using List.all_eq_true.mp hall c hc

theorem ofName?_eq_some_iff {s : String} {p : Policy} : ofName? s = some p ↔ s = p.name := by
  constructor
  · intro h
    rw [ofName?] at h
    have hname := List.find?_some h
    exact (eq_of_beq hname).symm
  · rintro rfl
    cases p <;> rfl

/-- A letter of a word is an ASCII letter, so it is not blank. -/
theorem isAlpha_of_map_toLower {p : Policy} {word : List Char}
    (h : word.map Char.toLower = p.name.toList) :
    ∀ c ∈ word, c.isAlpha = true ∧ isBlank c = false := by
  have hletters : ∀ n < 0x80, (Char.ofNat n).toLower ∈ p.name.toList →
      (Char.ofNat n).isAlpha = true ∧ isBlank (Char.ofNat n) = false := by
    cases p <;> decide
  intro c hc
  have hlt := toNat_lt_of_map_toLower h (isPlainWord_name p) c hc
  have hmem : c.toLower ∈ p.name.toList := h ▸ List.mem_map_of_mem hc
  have hchar := hletters c.toNat hlt
  rw [Char.ofNat_toNat] at hchar
  exact hchar hmem

/-- What is left of a text between its blanks tells whether it names a policy. -/
theorem spelled_iff {p : Policy} {text : String} :
    Spelled p text ↔ (trimChars text.toList).map Char.toLower = p.name.toList := by
  constructor
  · rintro ⟨front, word, back, htext, hfront, hback, hword⟩
    have hletters := isAlpha_of_map_toLower hword
    rwa [htext, trimChars_append hfront (fun c hc => (hletters c hc).2) hback]
  · intro hword
    obtain ⟨front, back, htext, hfront, hback, -⟩ := exists_eq_append_trim text
    rw [trim, String.toList_ofList] at htext
    exact ⟨front, trimChars text.toList, back, htext, hfront, hback, hword⟩

/-- **The lower case of what is left between the blanks** is the word of a policy just for the
spellings of the policy, whichever small letter a capital sigma gets. -/
theorem eq_name_iff_spelled {p : Policy} {text : String} {t : List Char}
    (h : Lowers (trimChars text.toList) t) : t = p.name.toList ↔ Spelled p text := by
  rw [spelled_iff]
  exact h.eq_iff (isPlainWord_name p)

theorem parse_eq_ok_iff {text : String} {p : Policy} : parse text = .ok p ↔ Spelled p text := by
  have hname : ofName? (String.ofList (lower (trimChars text.toList))) = some p
      ↔ Spelled p text := by
    rw [ofName?_eq_some_iff, ← String.toList_inj, String.toList_ofList]
    exact eq_name_iff_spelled (lowers_lower _)
  rw [← hname, parse]
  cases ofName? (String.ofList (lower (trimChars text.toList))) <;> simp

theorem parse_eq_error {text : String} (h : ∀ p, ¬Spelled p text) :
    parse text = .error (.unknownPolicy text) := by
  cases hparse : parse text with
  | ok p => exact absurd (parse_eq_ok_iff.mp hparse) (h p)
  | error e =>
    rw [parse] at hparse
    split at hparse
    · cases hparse
    · exact hparse.symm

/-- The failure of a policy quotes the text as it was given. -/
theorem exists_unknownPolicy_eq (text : String) : ∃ message,
    Failure.unknownPolicy text = .config message ∧ text.toList <:+: message.toList := by
  refine ⟨_, rfl, "unknown failure policy: '".toList, "' (supported: continue, abort)".toList, ?_⟩
  simp [String.toList_append]

/-- A policy has no other characters in it than ASCII letters and blanks. -/
theorem Spelled.mem {p : Policy} {text : String} (h : Spelled p text) {c : Char}
    (hc : c ∈ text.toList) : c.isAlpha = true ∨ isBlank c = true := by
  obtain ⟨front, word, back, htext, hfront, hback, hword⟩ := h
  rw [htext, List.mem_append, List.mem_append] at hc
  rcases hc with (hc | hc) | hc
  · exact .inr (hfront c hc)
  · exact .inl (isAlpha_of_map_toLower hword c hc).1
  · exact .inr (hback c hc)

/-- Characters that do not show and take up no room, none of which is blank. -/
def zeroWidth : List Char :=
  ['\u180e', '\u200b', '\u200c', '\u200d', '\u2060', '\ufeff']

/-- **Just the spellings of a policy name it.** -/
theorem parse_reads_spellings (text : String) :
    (∀ p, parse text = .ok p ↔ Spelled p text) ∧
    (∀ t, Lowers (trimChars text.toList) t → ∀ p, t = p.name.toList ↔ Spelled p text) ∧
    (∀ c ∈ text.toList, c.isAlpha = false → isBlank c = false → ∀ p, ¬Spelled p text) ∧
    (∀ c ∈ text.toList, c ∈ zeroWidth ∨ 0x1C ≤ c.toNat ∧ c.toNat ≤ 0x1F → ∀ p, ¬Spelled p text) ∧
    ((∀ p, ¬Spelled p text) → ∃ message,
      parse text = .error (.config message) ∧ text.toList <:+: message.toList) := by
  have hother : ∀ c ∈ text.toList, c.isAlpha = false → isBlank c = false →
      ∀ p, ¬Spelled p text := by
    intro c hc halpha hblank p hp
    rcases hp.mem hc with h | h
    · exact absurd h (by simp [halpha])
    · exact absurd h (by simp [hblank])
  refine ⟨fun _ => parse_eq_ok_iff, fun _ h _ => eq_name_iff_spelled h, hother, ?_, ?_⟩
  · rintro c hc (hzero | ⟨hlow, hhigh⟩)
    · have hall : zeroWidth.all (fun c => !c.isAlpha && !isBlank c) = true := by decide
      have hchar := List.all_eq_true.mp hall c hzero
      rw [Bool.and_eq_true, Bool.not_eq_true', Bool.not_eq_true'] at hchar
      exact hother c hc hchar.1 hchar.2
    · have hall : ∀ n < 0x20, 0x1C ≤ n →
          (Char.ofNat n).isAlpha = false ∧ isBlank (Char.ofNat n) = false := by decide
      have hchar := hall c.toNat (Nat.lt_succ_of_le hhigh) hlow
      rw [Char.ofNat_toNat] at hchar
      exact hother c hc hchar.1 hchar.2
  · intro hnone
    obtain ⟨message, hmessage, hquoted⟩ := exists_unknownPolicy_eq text
    exact ⟨message, (parse_eq_error hnone).trans (congrArg Except.error hmessage), hquoted⟩

end ImageRecipe.Policy
