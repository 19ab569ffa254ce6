import ImageRecipe.Proofs.Decode.EntryFields
import ImageRecipe.Proofs.Decode.TreeReading

/-!
# Definitions, labels and settings from entries in any order

The reader of a record takes the entries one after the other, and yet what it
reads is gathered from them: `yieldsAfter_fields_iff` and `named_eq_ok_iff` say
so for the two formats.  A record is then made by setting the fields, each of
which has a name of its own, so everything that `Unordered` and `Omits` say
holds of it.
-/

namespace ImageRecipe

open Decode Yaml

/-! ### The fields of records -/

namespace Labels

def fields (l : Labels) : List Field :=
  l.writtenFields.map (·.2.2)

def Field.name : Field → String
  | .authors _ => authorsKey
  | .version _ => versionKey
  | .description _ => descriptionKey

theorem setsFields : SetsFields set Field.name where
  comm a x y h := by cases x <;> cases y <;> first | rfl | exact absurd rfl h
  last a x y h := by
    cases x <;> cases y <;> first | rfl | exact absurd h (by dsimp only [Field.name]; decide)
  inj a x y hname h := by
    cases x <;> cases y <;>
      first | exact absurd hname (by dsimp only [Field.name]; decide) | simpa [set] using h

theorem set_of_mem_fields (l : Labels) : ∀ x ∈ l.fields, l.set x = l := by
  simp [fields, writtenFields, set]

end Labels

namespace Definition

def fields (d : Definition) : List Field :=
  d.writtenFields.map (·.2.2)

def Field.name : Field → String
  | .base _ => baseKey
  | .steps _ => stepsKey
  | .port _ => portKey
  | .entrypoint _ => entrypointKey
  | .command _ => commandKey
  | .author _ => authorKey
  | .labels _ => labelsKey
  | .volumes _ => volumesKey

theorem setsFields : SetsFields set Field.name where
  comm a x y h := by cases x <;> cases y <;> first | rfl | exact absurd rfl h
  last a x y h := by
    cases x <;> cases y <;> first | rfl | exact absurd h (by dsimp only [Field.name]; decide)
  inj a x y hname h := by
    cases x <;> cases y <;>
      first | exact absurd hname (by dsimp only [Field.name]; decide) | simpa [set] using h

theorem set_of_mem_fields (d : Definition) : ∀ x ∈ d.fields, d.set x = d := by
  simp [fields, writtenFields, set]

end Definition

namespace Settings

def fields (s : Settings) : List Field :=
  s.writtenFields.map (·.2.2)

def Field.name : Field → String
  | .shell _ => shellKey
  | .policy _ => policyKey
  | .quiet _ => quietKey

theorem setsFields : SetsFields set Field.name where
  comm a x y h := by cases x <;> cases y <;> first | rfl | exact absurd rfl h
  last a x y h := by
    cases x <;> cases y <;> first | rfl | exact absurd h (by dsimp only [Field.name]; decide)
  inj a x y hname h := by
    cases x <;> cases y <;>
      first | exact absurd hname (by dsimp only [Field.name]; decide) | simpa [set] using h

theorem set_of_mem_fields (s : Settings) : ∀ x ∈ s.fields, s.set x = s := by
  simp [fields, writtenFields, set]

end Settings

/-! ### JSON -/

theorem Decode.bind_eq_ok_iff {α β : Type} {r : Except Misread α} {f : α → Except Misread β}
    {y : β} : r >>= f = .ok y ↔ ∃ x, r = .ok x ∧ f x = .ok y := by
  cases r with
  | error m => exact ⟨nofun, fun ⟨_, h, _⟩ => nomatch h⟩
  | ok x => exact ⟨fun h => ⟨x, rfl, h⟩, fun ⟨_, hx, h⟩ => Except.ok.inj hx ▸ h⟩

namespace Decode.TreeReading

open Json (Tree)

variable {φ : Type} {known : Fields φ} {name : φ → String}

def HasMembers (t : String) (ms : List (Tree × Tree)) : Prop :=
  Json.read t = (.object ms, true)

def HasKey (m : Tree × Tree) (s : String) : Prop :=
  m.1 = .string s

def HasText (m : Tree × Tree) : Prop :=
  ∃ s, m.2 = .string s

/-- What a member gives the reader of the fields in `known`: the field that its key names, or
nothing if there is no such field. -/
def FieldOf (known : Fields φ) (m : Tree × Tree) (o : Option φ) : Prop :=
  ∃ s, HasKey m s ∧ (known.lookup s = none ∧ m.2.isBroken = false ∧ o = none ∨
    ∃ read x, known.lookup s = some read ∧ read m.2 = .ok x ∧ o = some x)

def ReadsNamed (known : Fields φ) (name : φ → String) : Prop :=
  ∀ {s read v x}, known.lookup s = some read → read v = .ok x → name x = s

/-- A field is taken if its name is new. -/
theorem take_eq_ok_iff {s : String} {seen : List String} {r : Except Misread φ}
    {q : Except Misread (List φ)} {xs : List φ} :
    (if seen.contains s then do
        throw (.misfits (.duplicateField s))
        let x ← r
        return x :: (← q)
      else do
        let x ← r
        return x :: (← q)) = .ok xs ↔ s ∉ seen ∧ ∃ x ys, r = .ok x ∧ q = .ok ys ∧ x :: ys = xs := by
  by_cases hs : s ∈ seen
  · rw [if_pos (by simpa using hs)]
    exact ⟨nofun, fun h => absurd hs h.1⟩
  · rw [if_neg (by simpa using hs), bind_eq_ok_iff]
    simp only [bind_eq_ok_iff, pure, Except.pure, Except.ok.injEq, hs, not_false_eq_true,
      true_and, exists_and_left]

theorem ignore_eq_ok_iff {v : Tree} {q : Except Misread (List φ)} {xs : List φ} :
    (if v.isBroken then do
        throw .malformed
        q
      else q) = .ok xs ↔ v.isBroken = false ∧ q = .ok xs := by
  cases v.isBroken with
  | false => exact ⟨fun h => ⟨rfl, h⟩, fun h => h.2⟩
  | true => exact ⟨nofun, fun h => Bool.noConfusion h.1⟩

/-- **The fields that are read are those that the members give.** -/
theorem named_eq_ok_iff (hname : ReadsNamed known name) {seen : List String}
    {ms : List (Tree × Tree)} {xs : List φ} :
    named known seen ms = .ok xs ↔
      Gathers (FieldOf known) name ms xs ∧ ∀ x ∈ xs, name x ∉ seen := by
  induction ms generalizing seen xs with
  | nil =>
    constructor
    · intro h
      obtain rfl := Except.ok.inj h
      exact ⟨.nil, nofun⟩
    · rintro ⟨h, -⟩
      cases h
      rfl
  | cons m ms ih =>
    obtain ⟨k, v⟩ := m
    constructor
    · intro h
      rw [named.eq_def] at h
      cases k with
      | string s =>
        cases hl : known.lookup s with
        | none =>
          simp only [hl] at h
          obtain ⟨hbroken, h⟩ := ignore_eq_ok_iff.mp h
          obtain ⟨hgathers, hnew⟩ := ih.mp h
          exact ⟨.skip ⟨s, rfl, .inl ⟨hl, hbroken, rfl⟩⟩ hgathers, hnew⟩
        | some read =>
          simp only [hl] at h
          obtain ⟨hs, x, ys, hx, hys, rfl⟩ := take_eq_ok_iff.mp h
          obtain ⟨hgathers, hnew⟩ := ih.mp hys
          obtain rfl := hname hl hx
          refine ⟨.take ⟨_, rfl, .inr ⟨read, x, hl, hx, rfl⟩⟩ (fun y hy h => ?_) hgathers, ?_⟩
          · exact hnew y hy (h ▸ List.mem_cons_self)
          · exact List.forall_mem_cons.mpr
              ⟨hs, fun y hy h => hnew y hy (List.mem_cons_of_mem _ h)⟩
      | _ => cases h
    · rintro ⟨h, hnew⟩
      cases h with
      | skip h h' =>
        obtain ⟨s, rfl, ⟨hl, hbroken, -⟩ | ⟨_, _, _, _, h⟩⟩ := h
        · rw [named.eq_def]
          simp only [hl]
          exact ignore_eq_ok_iff.mpr ⟨hbroken, ih.mpr ⟨h', hnew⟩⟩
        · cases h
      | take h hdistinct h' =>
        obtain ⟨s, rfl, ⟨_, _, h⟩ | ⟨read, x, hl, hx, h⟩⟩ := h
        · cases h
        · obtain rfl := Option.some.inj h
          obtain ⟨hfirst, hnew⟩ := List.forall_mem_cons.mp hnew
          obtain rfl := hname hl hx
          rw [named.eq_def]
          simp only [hl]
          refine take_eq_ok_iff.mpr
            ⟨hfirst, _, _, hx, ih.mpr ⟨h', fun y hy hmem => ?_⟩, rfl⟩
          rcases List.mem_cons.mp hmem with hy' | hy'
          · exact hdistinct y hy hy'
          · exact hnew y hy hy'

/-- A text that is an object is read as that. -/
theorem readJson_eq_ok_iff {α : Type} {read : Reader α} {t : String} {ms : List (Tree × Tree)}
    (h : HasMembers t ms) {v : α} : readJson read t = .ok v ↔ read (.object ms) = .ok v := by
  rw [readJson, h]
  cases hread : read (.object ms) <;> simp [hread]

theorem FieldOf.of_hasKey {known : Fields φ} (hname : ReadsNamed known name)
    (hkeys : ∀ s, s ∈ known.map (·.1) ↔ ∃ x, name x = s) {m : Tree × Tree} {s : String}
    (hkey : HasKey m s) (hs : ∃ x, name x = s) (o : Option φ) (h : FieldOf known m o) :
    ∃ x, o = some x ∧ name x = s := by
  obtain ⟨s', hs', hgives⟩ := h
  obtain rfl : s' = s := Tree.string.inj (hs'.symm.trans hkey)
  rcases hgives with ⟨hl, -⟩ | ⟨read, x, hl, hx, rfl⟩
  · exact absurd ((hkeys s').mpr hs) (lookup_eq_none_iff.mp hl)
  · exact ⟨x, rfl, hname hl hx⟩

theorem FieldOf.of_unknown {known : Fields φ}
    (hkeys : ∀ s, s ∈ known.map (·.1) ↔ ∃ x, name x = s) {m : Tree × Tree} {s : String}
    (hkey : HasKey m s) (htext : HasText m) (hs : ¬∃ x, name x = s) : FieldOf known m none := by
  have hl : known.lookup s = none := lookup_eq_none_iff.mpr fun h => hs ((hkeys s).mp h)
  obtain ⟨t, ht⟩ := htext
  exact ⟨s, hkey, .inl ⟨hl, by rw [ht]; rfl, rfl⟩⟩

/-- **A JSON record is read from its members in any order.** -/
theorem unordered_record {α : Type} {decode : String → Except Failure α} {known : Fields φ}
    {expected : Expected} {set : α → φ → α} {empty : α} {all : α → List φ}
    (hdecode : ∀ {t v}, decode t = .ok v ↔
      readJson (fun m => (List.foldl set empty ·) <$> record expected known m) t = .ok v)
    (hname : ReadsNamed known name) (hkeys : ∀ s, s ∈ known.map (·.1) ↔ ∃ x, name x = s)
    (hset : SetsFields set name) (hall : ∀ (v : α), ∀ x ∈ all v, set v x = v) :
    Unordered decode HasMembers HasKey HasText (fun _ s => ∃ x, name x = s) ∧
      Omits decode HasMembers (fun _ => True) HasKey all name empty := by
  have hread {t : String} {ms : List (Tree × Tree)} {v : α} (h : HasMembers t ms) :
      decode t = .ok v ↔
        True ∧ ∃ xs, Gathers (FieldOf known) name ms xs ∧ xs.foldl set empty = v := by
    have hmap : (List.foldl set empty ·) <$> record expected known (.object ms)
        = named known [] ms >>= fun xs => .ok (xs.foldl set empty) := by
      rw [record]
      cases named known [] ms <;> rfl
    rw [hdecode, readJson_eq_ok_iff h, hmap, bind_eq_ok_iff]
    simp only [named_eq_ok_iff hname, List.not_mem_nil, not_false_eq_true, implies_true, and_true,
      true_and, Except.ok.injEq]
  constructor
  · refine Unordered.of_gathers name (fun _ => FieldOf known) (fun v xs => xs.foldl set empty = v)
      hread ?_ (fun _ h => h) ?_ ?_
    · intro v xs ys hp hnames hv
      rw [← hset.foldl_perm hp hnames, hv]
    · intro v es xs u s _ _ htext hkey hs
      exact ⟨FieldOf.of_unknown hkeys hkey htext hs, id⟩
    · intro v es e s hs _ hkey
      exact FieldOf.of_hasKey hname hkeys hkey hs
  · exact Omits.of_gathers hset hall hread (fun _ _ _ => trivial) fun hkey =>
      FieldOf.of_hasKey hname hkeys hkey ⟨_, rfl⟩

end Decode.TreeReading

/-! ### The records -/

theorem Decode.orFailure_eq_ok_iff {α : Type} (format : Format) {r : Except Misread α} {v : α} :
    orFailure format r = .ok v ↔ r = .ok v := by
  cases r <;> simp [orFailure, Except.mapError]

namespace Labels

theorem exists_name_iff (s : String) :
    (∃ x : Field, x.name = s) ↔ s ∈ [authorsKey, versionKey, descriptionKey] := by
  constructor
  · rintro ⟨x, rfl⟩
    cases x <;> simp [Field.name]
  · simp only [List.mem_cons, List.not_mem_nil, or_false]
    rintro (rfl | rfl | rfl)
    exacts [⟨.authors [], rfl⟩, ⟨.version none, rfl⟩, ⟨.description none, rfl⟩]

theorem readsNamed_yaml : Reading.ReadsNamed Reading.labelsFields Field.name := by
  intro as s read place v c x hl hx
  have hmem := mem_of_lookup hl
  simp only [Reading.labelsFields, List.mem_cons, Prod.mk.injEq, List.not_mem_nil,
    or_false] at hmem
  rcases hmem with ⟨rfl, rfl⟩ | ⟨rfl, rfl⟩ | ⟨rfl, rfl⟩ <;>
  · obtain ⟨y, rfl⟩ := hx.exists_of_map
    rfl

theorem unordered_yaml (tag : Option String) :
    Unordered ofYaml (RootEntries tag) Entry.HasKey Entry.HasText
        (fun _ s => ∃ x : Field, x.name = s) ∧
      Omits ofYaml (RootEntries tag) (Reading.AliasesFit Reading.labels) Entry.HasKey fields
        Field.name {} :=
  Reading.unordered_record (orFailure_eq_ok_iff .yaml) rfl
    (fun _ _ => Reading.agreeFields_labels) readsNamed_yaml (fun _ s => (exists_name_iff s).symm)
    setsFields set_of_mem_fields tag

end Labels

namespace Definition

theorem exists_name_iff (s : String) : (∃ x : Field, x.name = s) ↔
    s ∈ [baseKey, stepsKey, portKey, entrypointKey, commandKey, authorKey, labelsKey,
      volumesKey] := by
  constructor
  · rintro ⟨x, rfl⟩
    cases x <;> simp [Field.name]
  · simp only [List.mem_cons, List.not_mem_nil, or_false]
    rintro (rfl | rfl | rfl | rfl | rfl | rfl | rfl | rfl)
    exacts [⟨.base none, rfl⟩, ⟨.steps [], rfl⟩, ⟨.port none, rfl⟩, ⟨.entrypoint none, rfl⟩,
      ⟨.command none, rfl⟩, ⟨.author none, rfl⟩, ⟨.labels none, rfl⟩, ⟨.volumes [], rfl⟩]

theorem readsNamed_yaml : Reading.ReadsNamed Reading.definitionFields Field.name := by
  intro as s read place v c x hl hx
  have hmem := mem_of_lookup hl
  simp only [Reading.definitionFields, List.mem_cons, Prod.mk.injEq, List.not_mem_nil,
    or_false] at hmem
  rcases hmem with ⟨rfl, rfl⟩ | ⟨rfl, rfl⟩ | ⟨rfl, rfl⟩ | ⟨rfl, rfl⟩ | ⟨rfl, rfl⟩ | ⟨rfl, rfl⟩ |
    ⟨rfl, rfl⟩ | ⟨rfl, rfl⟩ <;>
  · obtain ⟨y, rfl⟩ := hx.exists_of_map
    rfl

theorem unordered_yaml (tag : Option String) :
    Unordered ofYaml (RootEntries tag) Entry.HasKey Entry.HasText
        (fun _ s => ∃ x : Field, x.name = s) ∧
      Omits ofYaml (RootEntries tag) (Reading.AliasesFit Reading.definition) Entry.HasKey fields
        Field.name {} :=
  Reading.unordered_record (orFailure_eq_ok_iff .yaml) rfl
    (fun _ _ => Reading.agreeFields_definition) readsNamed_yaml (fun _ s => (exists_name_iff s).symm)
    setsFields set_of_mem_fields tag

end Definition

namespace Settings

theorem exists_name_iff (s : String) :
    (∃ x : Field, x.name = s) ↔ s ∈ [shellKey, policyKey, quietKey] := by
  constructor
  · rintro ⟨x, rfl⟩
    cases x <;> simp [Field.name]
  · simp only [List.mem_cons, List.not_mem_nil, or_false]
    rintro (rfl | rfl | rfl)
    exacts [⟨.shell "", rfl⟩, ⟨.policy .continue, rfl⟩, ⟨.quiet false, rfl⟩]

theorem readsNamed_yaml : Reading.ReadsNamed Reading.settingsFields Field.name := by
  intro as s read place v c x hl hx
  have hmem := mem_of_lookup hl
  simp only [Reading.settingsFields, List.mem_cons, Prod.mk.injEq, List.not_mem_nil,
    or_false] at hmem
  rcases hmem with ⟨rfl, rfl⟩ | ⟨rfl, rfl⟩ | ⟨rfl, rfl⟩ <;>
  · obtain ⟨y, rfl⟩ := hx.exists_of_map
    rfl

theorem unordered_yaml (tag : Option String) :
    Unordered ofYaml (RootEntries tag) Entry.HasKey Entry.HasText
        (fun _ s => ∃ x : Field, x.name = s) ∧
      Omits ofYaml (RootEntries tag) (Reading.AliasesFit Reading.settings) Entry.HasKey fields
        Field.name {} :=
  Reading.unordered_record (orFailure_eq_ok_iff .yaml) rfl
    (fun _ _ => Reading.agreeFields_settings) readsNamed_yaml (fun _ s => (exists_name_iff s).symm)
    setsFields set_of_mem_fields tag

end Settings

end ImageRecipe
