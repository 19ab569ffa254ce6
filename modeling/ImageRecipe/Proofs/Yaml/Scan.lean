import ImageRecipe.Proofs.Yaml.Cursor
import ImageRecipe.Yaml.Scan

/-!
# Runs of the scanner

`Scan.Leads` is a sequence of steps, none of which is the last.  Between two
tokens not all is settled: how many block collections end there shows only with
the column of what follows.  `Scan.Ready` therefore says of a state what the
next step will find once it has passed all spaces and line ends, and
`Scan.Ready.close` counts a collection as closed as soon as something is known
to stand less deep.
-/

namespace ImageRecipe.Yaml.Scan

def outside (c : Cursor) (indents : List Nat) (key : Option Candidate) (allowed : Bool)
    (tokens : List Token) : Scan :=
  { cursor := c, indents, key, keyAllowed := allowed, tokens, count := tokens.length }

section

variable (c : Cursor) (indents : List Nat) (key : Option Candidate) (allowed : Bool)
  (tokens : List Token)

@[simp] theorem cursor_outside : (outside c indents key allowed tokens).cursor = c := rfl

@[simp] theorem flow_outside : (outside c indents key allowed tokens).flow = false := rfl

@[simp] theorem margin_outside_cons (p : Nat) :
    (outside c (p :: indents) key allowed tokens).margin = p + 1 := rfl

end

def Droppable (key : Option Candidate) : Prop :=
  ∀ k ∈ key, k.required = false

theorem droppable_none : Droppable none := by
  simp [Droppable]

theorem release_of_droppable {key : Option Candidate} (h : Droppable key) :
    release key = some none := by
  cases key with
  | none => rfl
  | some k => simp [release, h k rfl]

theorem exists_refresh {key : Option Candidate} (h : Droppable key) (c : Cursor) :
    ∃ key', refresh c key = some key' ∧ Droppable key' := by
  cases key with
  | none => exact ⟨none, rfl, h⟩
  | some k =>
    rw [refresh]
    split
    · exact ⟨none, release_of_droppable h, droppable_none⟩
    · exact ⟨some k, rfl, h⟩

/-! ### Runs -/

/-- Some steps before the last one.  Each takes up a part of the text. -/
inductive Leads : Scan → Scan → Prop
  | refl (s : Scan) : Leads s s
  | head {s t u : Scan} : s.step = some t → t.tokens.head? ≠ some .streamEnd →
    t.cursor.rest.length < s.cursor.rest.length → Leads t u → Leads s u

theorem Leads.single {s t : Scan} (h : s.step = some t) (hend : t.tokens.head? ≠ some .streamEnd)
    (hlt : t.cursor.rest.length < s.cursor.rest.length) : Leads s t :=
  .head h hend hlt (.refl t)

theorem Leads.trans {s t u : Scan} (h : Leads s t) (g : Leads t u) : Leads s u := by
  induction h with
  | refl => exact g
  | head hstep hend hlt _ ih => exact .head hstep hend hlt (ih g)

/-- A run passes through the steps, given fuel for every character and one more step. -/
theorem Leads.exists_run_eq {s t : Scan} (h : Leads s t) {fuel : Nat}
    (hfuel : s.cursor.rest.length < fuel) : ∃ n, run fuel s = run (n + 1) t := by
  induction h generalizing fuel with
  | refl s => exact ⟨fuel - 1, by rw [Nat.sub_add_cancel (Nat.one_le_of_lt hfuel)]⟩
  | head hfirst hnot hlt _ ih =>
    cases fuel with
    | zero => exact absurd hfuel (Nat.not_lt_zero _)
    | succ n =>
      simpa [run, hfirst, hnot] using ih (Nat.lt_of_lt_of_le hlt (Nat.le_of_lt_succ hfuel))

/-- **A run reads all tokens** if it comes to the end of the text. -/
theorem Leads.run_eq {s t u : Scan} (h : Leads s t) (hstep : t.step = some u)
    (hend : u.tokens.head? = some .streamEnd) {fuel : Nat}
    (hfuel : s.cursor.rest.length < fuel) : run fuel s = u.tokens.reverse := by
  obtain ⟨n, hrun⟩ := h.exists_run_eq hfuel
  simp [hrun, run, hstep, hend]

/-- A run that comes to a halt keeps what is settled. -/
theorem Leads.run_eq_settled {s t : Scan} (h : Leads s t) (hstep : t.step = none) {fuel : Nat}
    (hfuel : s.cursor.rest.length < fuel) : run fuel s = t.settled := by
  obtain ⟨n, hrun⟩ := h.exists_run_eq hfuel
  simp [hrun, run, hstep]

/-! ### The way to the next token -/

def arrive (s : Scan) : Option Scan := do
  let (keyAllowed, cursor) := toToken s.flow s.keyAllowed s.cursor
  let s ← refreshKeys { s with keyAllowed, cursor }
  return s.closeBlocks (· ≤ s.cursor.column)

theorem step_eq (s : Scan) : s.step = s.arrive.bind fun t => t.token.bind refreshKeys := by
  rw [step, arrive]
  generalize toToken s.flow s.keyAllowed s.cursor = r
  obtain ⟨b, c⟩ := r
  cases h : refreshKeys { s with keyAllowed := b, cursor := c } <;> simp [h]

theorem toContent_content {s : List Char} (hs : Content s) (flow allowed : Bool) (k i l c : Nat) :
    toContent flow allowed ⟨spaces k ++ s, i, l, c⟩ = ⟨s, i + k, l, c + k⟩ := by
  have hmark : startsWith '\ufeff' (spaces k ++ s) = false := by
    cases k with
    | zero =>
      cases s with
      | nil => rfl
      | cons x s => simpa [startsWith, spaces] using (hs x rfl).2.2.2
    | succ k => rfl
  have hcomment : startsWith '#' s = false := by
    cases s with
    | nil => rfl
    | cons x s => simpa [startsWith] using (hs x rfl).2.2.1
  rw [toContent, Cursor.skipMark, hmark, Bool.and_false, if_neg (by decide),
    Cursor.skipWhile_append (fun x hx => by simp [List.eq_of_mem_replicate hx]) ?_,
    Cursor.skipComment, hcomment, if_neg (by decide), length_spaces]
  intro x hx
  obtain ⟨hspace, htab⟩ : x ≠ ' ' ∧ x ≠ '\t' := by simpa [isSpace] using (hs x hx).1
  simp [hspace, htab]

/-- The equation of `toToken`, without the proof that it ends. -/
theorem toToken_eq (flow allowed : Bool) (c : Cursor) :
    toToken flow allowed c =
      match (toContent flow allowed c).rest with
      | [] => (allowed, toContent flow allowed c)
      | ch :: _ =>
        if isBreak ch then toToken flow (allowed || !flow) (toContent flow allowed c).newline
        else (allowed, toContent flow allowed c) := by
  rw [toToken]
  split
  · next h => simp only [h]
  · next h => simp only [h]

theorem toToken_content {s : List Char} (hs : Content s) (flow allowed : Bool) (k i l c : Nat) :
    toToken flow allowed ⟨spaces k ++ s, i, l, c⟩ = (allowed, ⟨s, i + k, l, c + k⟩) := by
  rw [toToken_eq, toContent_content hs]
  cases s with
  | nil => rfl
  | cons x s => simp [(hs x rfl).2.1]

theorem toToken_newline (s : List Char) (allowed : Bool) (i l c : Nat) :
    toToken false allowed ⟨'\n' :: s, i, l, c⟩ = toToken false true ⟨s, i + 1, l + 1, 0⟩ := by
  have hstay : toContent false allowed ⟨'\n' :: s, i, l, c⟩ = ⟨'\n' :: s, i, l, c⟩ := by
    simp [toContent, Cursor.skipMark, startsWith, Cursor.skipWhile, Cursor.skip, Cursor.skipComment]
  rw [toToken_eq, hstay]
  simp [isBreak, Cursor.newline_cons]

theorem refreshKeys_outside (c : Cursor) (indents : List Nat) (key : Option Candidate)
    (allowed : Bool) (tokens : List Token) :
    refreshKeys (outside c indents key allowed tokens)
      = (refresh c key).map fun key' => outside c indents key' allowed tokens := by
  simp only [refreshKeys, outside]
  cases refresh c key <;> simp

theorem closeBlocks_cons {keep : Nat → Bool} {n : Nat} (hn : keep n = false) (c : Cursor)
    (indents : List Nat) (key : Option Candidate) (allowed : Bool) (tokens : List Token) :
    closeBlocks keep (outside c (n :: indents) key allowed tokens)
      = closeBlocks keep (outside c indents key allowed (.blockEnd :: tokens)) := by
  simp only [closeBlocks, outside, flow, List.isEmpty_nil, Bool.not_true, Bool.false_eq_true,
    if_false, List.takeWhile_cons, List.dropWhile_cons, hn, Bool.not_false, if_true,
    List.length_cons, List.replicate_succ']
  simp [Nat.add_assoc, Nat.add_comm 1]

theorem closeBlocks_of_keep {keep : Nat → Bool} {indents : List Nat}
    (h : ∀ n ∈ indents.head?, keep n = true) (c : Cursor) (key : Option Candidate)
    (allowed : Bool) (tokens : List Token) :
    closeBlocks keep (outside c indents key allowed tokens)
      = outside c indents key allowed tokens := by
  cases indents with
  | nil => rfl
  | cons n indents => simp [closeBlocks, outside, flow, h n rfl]

theorem arrive_outside {c d : Cursor} {key key' : Option Candidate} {allowed allowed' : Bool}
    {indents : List Nat} {tokens : List Token} (htoken : toToken false allowed c = (allowed', d))
    (hrefresh : refresh d key = some key') : arrive (outside c indents key allowed tokens)
      = some (closeBlocks (· ≤ d.column) (outside d indents key' allowed' tokens)) := by
  have houtside := refreshKeys_outside d indents key allowed' tokens
  rw [hrefresh, Option.map_some] at houtside
  rw [arrive, flow_outside]
  simp only [outside] at houtside htoken ⊢
  simp [htoken, houtside]

/-! ### Ready states -/

/-- The next step finds `rest` at a column.  The collections `indents` were open so far; those that
are deeper than the column end here. -/
def Ready (s : Scan) (rest : List Char) (column : Nat) (allowed : Bool) (indents : List Nat)
    (tokens : List Token) : Prop :=
  rest.length ≤ s.cursor.rest.length ∧ ∃ i l key, Droppable key ∧
    s.arrive = some
      (closeBlocks (· ≤ column) (outside ⟨rest, i, l, column⟩ indents key allowed tokens))

variable {s : Scan} {rest : List Char} {column : Nat} {allowed : Bool} {indents : List Nat}
  {tokens : List Token}

theorem Ready.close {n : Nat} (h : Ready s rest column allowed (n :: indents) tokens)
    (hn : column < n) : Ready s rest column allowed indents (.blockEnd :: tokens) := by
  obtain ⟨hlen, i, l, key, hkey, ha⟩ := h
  refine ⟨hlen, i, l, key, hkey, ?_⟩
  rw [ha, closeBlocks_cons (by simpa using hn)]

theorem Ready.arrive_eq (h : Ready s rest column allowed indents tokens)
    (hn : ∀ n ∈ indents.head?, n ≤ column) : ∃ i l key, Droppable key ∧
      s.arrive = some (outside ⟨rest, i, l, column⟩ indents key allowed tokens) := by
  obtain ⟨_, i, l, key, hkey, ha⟩ := h
  refine ⟨i, l, key, hkey, ?_⟩
  rw [ha, closeBlocks_of_keep fun n hnmem => by simpa using hn n hnmem]

/-- From a place the way to the next token ends at `rest`. -/
def Lands (c : Cursor) (allowed : Bool) (rest : List Char) (column : Nat) (allowed' : Bool) :
    Prop :=
  rest.length ≤ c.rest.length ∧
    ∃ i l, toToken false allowed c = (allowed', ⟨rest, i, l, column⟩)

/-- The next token stands on the same line. -/
theorem lands_content (hs : Content rest) (allowed : Bool) (k i l c : Nat) :
    Lands ⟨spaces k ++ rest, i, l, c⟩ allowed rest (c + k) allowed :=
  ⟨by simp, _, _, toToken_content hs false allowed k i l c⟩

/-- The next token stands on the next line. -/
theorem lands_newline (hs : Content rest) (allowed : Bool) (k i l c : Nat) :
    Lands ⟨'\n' :: (spaces k ++ rest), i, l, c⟩ allowed rest k true := by
  refine ⟨by simp; omega, i + 1 + k, l + 1, ?_⟩
  rw [toToken_newline, toToken_content hs, Nat.zero_add]

theorem Lands.ready {c : Cursor} {allowed' : Bool} {key : Option Candidate}
    (h : Lands c allowed rest column allowed') (hkey : Droppable key) :
    Ready (outside c indents key allowed tokens) rest column allowed' indents tokens := by
  obtain ⟨hlen, i, l, htoken⟩ := h
  obtain ⟨key', hrefresh, hkey'⟩ := exists_refresh hkey ⟨rest, i, l, column⟩
  exact ⟨hlen, i, l, key', hkey', arrive_outside htoken hrefresh⟩

/-- **One token takes a ready state to the next.** -/
theorem Ready.leads {rest' : List Char} {column' : Nat} {allowed' : Bool} {indents' : List Nat}
    {tokens' : List Token} (h : Ready s rest column allowed indents tokens)
    (hn : ∀ n ∈ indents.head?, n ≤ column) (hend : tokens'.head? ≠ some .streamEnd)
    (htoken : ∀ i l key, Droppable key → ∃ c b key', Droppable key' ∧
      (outside ⟨rest, i, l, column⟩ indents key allowed tokens).token
        = some (outside c indents' key' b tokens') ∧
      c.rest.length < rest.length ∧ Lands c b rest' column' allowed') :
    ∃ t, Leads s t ∧ Ready t rest' column' allowed' indents' tokens' := by
  obtain ⟨i, l, key, hkey, ha⟩ := h.arrive_eq hn
  obtain ⟨c, b, key', hkey', ht, hlt, hlands⟩ := htoken i l key hkey
  obtain ⟨key'', hrefresh, hkey''⟩ := exists_refresh hkey' c
  refine ⟨outside c indents' key'' b tokens', Leads.single ?_ hend (Nat.lt_of_lt_of_le hlt h.1),
    hlands.ready hkey''⟩
  rw [step_eq, ha, Option.bind_some, ht, Option.bind_some, refreshKeys_outside, hrefresh]
  rfl

end ImageRecipe.Yaml.Scan
