import ImageRecipe.Proofs.Decode.RoundTrip
import ImageRecipe.Proofs.Decode.UnorderedSteps
import ImageRecipe.Proofs.Yaml.PlainWords
import ImageRecipe.Proofs.Yaml.Spellings

/-!
# Words are taken as they are written

A scalar comes into a record in one of two ways.  The optional text of a
definition is read from the scalar itself, and then any spelling will do but
that of a null.  The texts of a step are read from content, in which a scalar
is already a number, a boolean or a null if that is what it spells, and then
only a text will do.  Either way, what is read is the word that was written.
-/

namespace ImageRecipe

open Decode Yaml

namespace Decode.Reading

variable {room : Nat} {place : Place}

/-! ### Plain scalars -/

theorem meaning_plainNode (t : String) : meaning {} .plain t = .ok (resolve t.toList) := rfl

/-- A plain scalar is a text if it spells nothing else. -/
theorem isText_plainNode_iff {t s : String} :
    IsText (plainNode t) s ↔ s = t ∧ resolve t.toList = .text := by
  constructor
  · rintro ⟨p, style, h, -, hmeaning⟩
    obtain ⟨rfl, rfl, rfl⟩ := Node.scalar.inj h
    exact ⟨rfl, Except.ok.inj hmeaning⟩
  · rintro ⟨rfl, h⟩
    exact ⟨{}, .plain, rfl, rfl, by rw [meaning_plainNode, h]⟩

theorem exists_content_plainNode_iff {t s : String} {expected : Expected} :
    (∃ c, YieldsAfter c (content [] expected room place (plainNode t)) (.text s)) ↔
      s = t ∧ resolve t.toList = .text := by
  constructor
  · rintro ⟨c, h⟩
    obtain ⟨tag, style, htarget, -, hmeaning⟩ := isText_of_yieldsAfter_content h
    obtain ⟨rfl, rfl, rfl⟩ := Unfolding.scalar.inj htarget
    exact ⟨rfl, Except.ok.inj hmeaning⟩
  · rintro ⟨rfl, h⟩
    have htext : ((plainNode s).unfolding [] 1).IsText s :=
      ⟨none, .plain, rfl, rfl, (meaning_plainNode s).trans (congrArg Except.ok h)⟩
    obtain ⟨c, -, hread⟩ := exists_yieldsAfter_content htext expected room place
    exact ⟨c, hread⟩

/-- **An optional text is the plain scalar**, unless that spells a null. -/
theorem yields_optionalText_plainNode_iff {t : String} {o : Option String} :
    Yields (optionalText [] place (plainNode t)) o ↔
      o = if t.isEmpty || isNull t.toList then none else some t := by
  have hread : Yields (optionalText [] place (plainNode t))
      (if t.isEmpty || isNull t.toList then none else some t) := by
    refine .bind (yields_follow_scalar {} .plain t) (.bind (Yields.pure _) ?_)
    cases t.isEmpty || isNull t.toList with
    | true => exact Yields.pure none
    | false => exact .map some (yields_text .string place {} .plain t)
  exact ⟨fun h => h.unique hread, fun h => h ▸ hread⟩

/-! ### Steps -/

def HasKey (e : Node × Node) (s : String) : Prop :=
  IsText e.1 s

def NamesKind (e : Node × Node) (kd : StepKind) : Prop :=
  HasKey e Step.kindField ∧ ∃ p style, e.2 = .scalar p style kd.name

theorem HasKey.of {e : Node × Node} {s : String} (h : HasKey e s) (as : List (Nat × Node)) :
    (Entry.of as e).HasKey s := by
  obtain ⟨_, v⟩ := e
  obtain ⟨p, style, rfl, hlocal, hmeaning⟩ := h
  exact ⟨p.tag, style, rfl, hlocal, hmeaning⟩

theorem NamesKind.of {e : Node × Node} {kd : StepKind} (h : NamesKind e kd)
    (as : List (Nat × Node)) : (Entry.of as e).NamesKind kd := by
  obtain ⟨k, _⟩ := e
  obtain ⟨hkey, p, style, rfl⟩ := h
  exact ⟨hkey.of as, p.tag, style, rfl⟩

/-- The entry has this name, and a plain scalar for its value. -/
def IsPlainEntry (e : Node × Node) (f : String × String) : Prop :=
  HasKey e f.1 ∧ e.2 = plainNode f.2

/-- What an entry gives a step of a kind that has a field of the entry's name. -/
theorem givesPair_plainEntry_iff {kd : StepKind} {e : Node × Node} {f : String × String}
    (he : IsPlainEntry e f) (hname : f.1 ∈ kd.fieldNames) {o : Option (String × String)} :
    GivesPair (HoldsPart room place) kd (Entry.of [] e) o ↔
      o = some f ∧ resolve f.2.toList = .text := by
  obtain ⟨k, _⟩ := e
  obtain ⟨hkey, rfl⟩ := he
  have hne : f.1 ≠ Step.kindField := fun h => kd.kindField_notMem_fieldNames (h ▸ hname)
  have hfield : Content.fieldName kd (.text f.1) = .ok (some f.1) := by
    rw [Content.fieldName, Content.find?_fieldNames hname]
  constructor
  · intro h
    cases h with
    | kind h =>
      obtain ⟨d, hd⟩ := partsByKey.other_of_key (hkey.of []) hne h
      cases hd
    | other h hpair =>
      obtain ⟨d, hd⟩ := partsByKey.other_of_key (hkey.of []) hne h
      cases hd
      obtain ⟨_, h⟩ := h
      cases partOf_of_iff.mp h with
      | other _ _ hcontent =>
        cases hpair with
        | unknown hnone => cases hfield.symm.trans hnone
        | field hsome =>
          cases hfield.symm.trans hsome
          obtain ⟨rfl, htext⟩ := exists_content_plainNode_iff.mp ⟨_, hcontent⟩
          exact ⟨rfl, htext⟩
  · rintro ⟨rfl, htext⟩
    obtain ⟨_, -, hread⟩ := exists_yieldsAfter_content (hkey.of []) .kindField room place
    obtain ⟨_, hcontent⟩ := exists_content_plainNode_iff.mpr ⟨rfl, htext⟩
    exact .other ⟨_, _, _, rfl, .other hread (by simpa using hne) hcontent⟩ (.field hfield)

/-- **The fields of a step are gathered if all their scalars are texts**, and then as they are. -/
theorem gathers_plainEntries_iff {kd : StepKind} {es : List (Node × Node)}
    {fs xs : List (String × String)} (hes : List.Forall₂ IsPlainEntry es fs)
    (hnames : ∀ f ∈ fs, f.1 ∈ kd.fieldNames) (hnodup : (fs.map Prod.fst).Nodup) :
    Gathers (GivesPair (HoldsPart room place) kd) Prod.fst (es.map (Entry.of [])) xs ↔
      xs = fs ∧ ∀ f ∈ fs, resolve f.2.toList = .text := by
  induction hes generalizing xs with
  | nil =>
    constructor
    · intro h
      cases h
      exact ⟨rfl, nofun⟩
    · rintro ⟨rfl, -⟩
      exact .nil
  | @cons e f es fs he hes ih =>
    obtain ⟨hname, hnames⟩ := List.forall_mem_cons.mp hnames
    obtain ⟨hnew, hnodup⟩ := List.nodup_cons.mp hnodup
    rw [List.forall_mem_cons]
    constructor
    · intro h
      cases h with
      | skip h _ =>
        obtain ⟨h, -⟩ := (givesPair_plainEntry_iff he hname).mp h
        cases h
      | take h _ h' =>
        obtain ⟨hx, htext⟩ := (givesPair_plainEntry_iff he hname).mp h
        obtain ⟨rfl, htexts⟩ := (ih hnames hnodup).mp h'
        cases hx
        exact ⟨rfl, htext, htexts⟩
    · rintro ⟨rfl, htext, htexts⟩
      refine .take ((givesPair_plainEntry_iff he hname).mpr ⟨rfl, htext⟩) (fun y hy h => ?_)
        ((ih hnames hnodup).mpr ⟨rfl, htexts⟩)
      exact hnew (h ▸ List.mem_map_of_mem hy)

/-- The entry that names the kind gives that kind, and a step of no other. -/
theorem givesPair_namesKind_iff {kd kd' : StepKind} {e : Node × Node} (he : NamesKind e kd)
    {o : Option (String × String)} :
    GivesPair (HoldsPart room place) kd' (Entry.of [] e) o ↔
      kd' = kd ∧ o = some (Step.kindField, kd.name) := by
  constructor
  · intro h
    cases h with
    | kind h =>
      cases partsByKey.kind_of_names (he.of []) h
      exact ⟨rfl, rfl⟩
    | other h _ => cases partsByKey.kind_of_names (he.of []) h
  · rintro ⟨rfl, rfl⟩
    obtain ⟨k, _⟩ := e
    obtain ⟨hkey, p, style, rfl⟩ := he
    obtain ⟨_, -, hread⟩ := exists_yieldsAfter_content (hkey.of []) .kindField room place
    have hkind : Yields (Reading.kind [] (valuePlace place k) (.scalar p style kd'.name)) kd' :=
      .within _ (.bind (yields_text .variant _ p style _) (.lift (stepKind_eq_ok_iff.mpr rfl)))
    exact .kind ⟨_, _, _, rfl, .kind hread (.of_yields hkind)⟩

/-- The kind and the texts of a step are told by the pairs that it consists of. -/
theorem pairs_perm_iff {kd : StepKind} {ts : List String} (hlen : kd.fieldNames.length = ts.length)
    {s : Step} : ((Step.kindField, kd.name) :: kd.fieldNames.zip ts).Perm s.pairs ↔
      s.kind = kd ∧ s.fields = ts := by
  constructor
  · intro h
    obtain rfl : s.kind = kd := by
      rcases List.mem_cons.mp (h.subset List.mem_cons_self) with hpair | hpair
      · exact (StepKind.name_injective (Prod.mk.inj hpair).2).symm
      · exact absurd (List.of_mem_zip hpair).1 s.kind.kindField_notMem_fieldNames
    have hnames := Content.nodup_fieldNames s.kind
    have hzip : ((s.kind.fieldNames.zip ts).map Prod.fst).Nodup := by
      rwa [List.map_fst_zip hlen.le]
    have hrequired {ts' : List String} (hlen' : s.kind.fieldNames.length = ts'.length)
        (hp : (s.kind.fieldNames.zip ts).Perm (s.kind.fieldNames.zip ts')) :
        Content.required (s.kind.fieldNames.zip ts) s.kind.fieldNames = .ok ts' :=
      (Content.required_eq_ok_iff_perm hnames hlen' hzip fun x hx => (List.of_mem_zip hx).1).mpr hp
    have hfields := hrequired s.length_fields.symm h.cons_inv
    exact ⟨rfl, Except.ok.inj (hfields.symm.trans (hrequired hlen .rfl))⟩
  · rintro ⟨rfl, rfl⟩
    exact .rfl

/-- **A step of plain scalars is read if all of them are texts**, in whatever order the entries
stand, and then they are its texts. -/
theorem yields_step_iff {kd : StepKind} {ts : List String}
    (hlen : kd.fieldNames.length = ts.length) {k : Node × Node} {fs es : List (Node × Node)}
    (hkind : NamesKind k kd) (hfs : List.Forall₂ IsPlainEntry fs (kd.fieldNames.zip ts))
    (hes : es.Perm (k :: fs)) {s : Step} :
    Yields (step [] (room + 1) place (.mapping {} es)) s ↔
      s.kind = kd ∧ s.fields = ts ∧ ∀ t ∈ ts, resolve t.toList = .text := by
  have hstep : Yields (step [] (room + 1) place (.mapping {} es)) s ↔ ∃ ys,
      Gathers (GivesPair (HoldsPart room place) s.kind) Prod.fst (es.map (Entry.of [])) ys ∧
        ys.Perm s.pairs := by
    have hself := agree_kindAndContent (room + 1) place (.refl [] (.mapping {} es))
    rw [← exists_step_iff, step, hself.yields_bind_iff]
    constructor
    · rintro ⟨⟨kd', _⟩, hread, hs⟩
      obtain ⟨-, -, cs, hparts, rfl⟩ := yieldsAfter_kindAndContent_iff.mp (.of_yields hread)
      exact ⟨kd', cs, hparts, Yields.lift_iff.mp hs⟩
    · rintro ⟨kd', cs, hparts, hs⟩
      obtain ⟨c, hc⟩ : ∃ c, Costs (PartCost room place) (es.map (Entry.of [])) c := by
        refine exists_costs fun e he => ?_
        obtain ⟨p, c, hpart⟩ := hparts.exists_of_mem he
        exact ⟨c, p, hpart⟩
      have hread := yieldsAfter_kindAndContent_iff.mpr
        ⟨(rfl : localTag? {} = none), hc, cs, hparts, rfl⟩
      exact ⟨(kd', .mapping cs), ((hself.yieldsAfter_iff rfl).mp hread).2, Yields.lift hs⟩
  have hnames : ∀ f ∈ kd.fieldNames.zip ts, f.1 ∈ kd.fieldNames :=
    fun f hf => (List.of_mem_zip hf).1
  have hnodup : ((kd.fieldNames.zip ts).map Prod.fst).Nodup := by
    rw [List.map_fst_zip hlen.le]
    exact Content.nodup_fieldNames kd
  have htexts : (∀ f ∈ kd.fieldNames.zip ts, resolve f.2.toList = .text) ↔
      ∀ t ∈ ts, resolve t.toList = .text := by
    have hsnd : (kd.fieldNames.zip ts).map Prod.snd = ts := List.map_snd_zip hlen.ge
    conv => rhs; rw [← hsnd]
    exact (List.forall_mem_map (P := fun t : String => resolve t.toList = .text)).symm
  rw [hstep, ← htexts]
  constructor
  · rintro ⟨ys, hys, hp⟩
    obtain ⟨ys', hperm, hys'⟩ := hys.perm (hes.map (Entry.of []))
    cases hys' with
    | skip h _ =>
      obtain ⟨-, h⟩ := (givesPair_namesKind_iff hkind).mp h
      cases h
    | take h _ hys' =>
      obtain ⟨hkd, hx⟩ := (givesPair_namesKind_iff hkind).mp h
      cases hx
      rw [hkd] at hys'
      obtain ⟨rfl, hall⟩ := (gathers_plainEntries_iff hfs hnames hnodup).mp hys'
      obtain ⟨hs, hfields⟩ := (pairs_perm_iff hlen).mp (hperm.trans hp)
      exact ⟨hs, hfields, hall⟩
  · rintro ⟨rfl, hfields, hall⟩
    have hnew : ∀ f ∈ s.kind.fieldNames.zip ts, f.1 ≠ Step.kindField := fun f hf h =>
      s.kind.kindField_notMem_fieldNames (h ▸ hnames f hf)
    have hgathers : Gathers (GivesPair (HoldsPart room place) s.kind) Prod.fst
        ((k :: fs).map (Entry.of []))
        ((Step.kindField, s.kind.name) :: s.kind.fieldNames.zip ts) :=
      .take ((givesPair_namesKind_iff hkind).mpr ⟨rfl, rfl⟩) hnew
        ((gathers_plainEntries_iff hfs hnames hnodup).mpr ⟨rfl, hall⟩)
    obtain ⟨ys, hperm, hys⟩ := hgathers.perm (hes.symm.map (Entry.of []))
    exact ⟨ys, hys, hperm.trans ((pairs_perm_iff hlen).mpr ⟨rfl, hfields⟩)⟩

/-- A list of one item is read from that item. -/
theorem yields_list_singleton_iff {α : Type} {free : Prop} {read : Place → Node → Reading α}
    {n : Node} (hself : ∀ place, Agree free (read place n) (read place n)) {xs : List α} :
    Yields (list [] read place (.sequence {} [n])) xs ↔
      ∃ x, Yields (read (place ++ [.item 0]) n) x ∧ xs = [x] := by
  have hlist : list [] read place (.sequence {} [n])
      = within place (read (place ++ [.item 0]) n >>= fun x => pure [x]) := rfl
  rw [hlist, Yields.within_iff, (hself _).yields_bind_iff]
  simp only [Yields.pure_iff, eq_comm]

end Decode.Reading

/-! ### Definitions of one entry -/

namespace Definition

open Reading

/-- **A definition with one field is read from that field.** -/
theorem ofYaml_entry_iff {text name : String} {k v : Node} (h : HasEntries none text [(k, v)])
    (hk : IsText k name) {read : Place → Node → Reading Field}
    (hread : (definitionFields []).lookup name = some read) {d : Definition} :
    ofYaml text = .ok d ↔
      ∃ x, Yields (read (valuePlace [] k) v) x ∧ ({} : Definition).set x = d := by
  have hdecode : ofYaml text = .ok d ↔ readYaml (fun anchors place n =>
      ofFields <$> record anchors .definition (definitionFields anchors) place n) text = .ok d :=
    orFailure_eq_ok_iff .yaml
  have hknown : AgreeEverywhere definitionFields := fun _ _ => agreeFields_definition
  have hkey : Yields (Reading.text [] .field [] k) name := hk.yields_text .field []
  rw [hdecode, readYaml_record_iff hknown readsNamed_yaml (.of_hasEntries h)]
  constructor
  · rintro ⟨-, xs, hxs, rfl⟩
    cases hxs with
    | skip h _ =>
      obtain ⟨_, h⟩ := h
      cases (fieldOf_of_iff hknown).mp h with
      | unknown hkey' hnone _ =>
        obtain rfl := (hkey'.unique (.of_yields hkey)).2
        cases hnone.symm.trans hread
    | take h _ hxs =>
      obtain ⟨_, h⟩ := h
      cases hxs
      cases (fieldOf_of_iff hknown).mp h with
      | known hkey' hsome hx =>
        obtain rfl := (hkey'.unique (.of_yields hkey)).2
        cases hsome.symm.trans hread
        exact ⟨_, (((hknown.self hread _ v).yieldsAfter_iff rfl).mp hx).2, rfl⟩
  · rintro ⟨x, hx, rfl⟩
    have hgives : FieldOf definitionFields (Entry.of [] (k, v)) (some x) 0 :=
      ⟨[], _, rfl, .known (.of_yields hkey) hread (.of_yields hx)⟩
    exact ⟨⟨0, .cons ⟨_, hgives⟩ .nil, Nat.zero_le _⟩, [x], .take ⟨_, hgives⟩ nofun .nil, rfl⟩

/-- **The author is the word that is written**, unless it spells a null. -/
theorem ofYaml_author {text t : String} {k : Node} (h : HasEntries none text [(k, plainNode t)])
    (hk : IsText k authorKey) :
    ofYaml text = .ok { author := if t.isEmpty || isNull t.toList then none else some t } :=
  (ofYaml_entry_iff h hk rfl).mpr ⟨_, .map _ (yields_optionalText_plainNode_iff.mpr rfl), rfl⟩

/-- All that the document of a text has is a list of this one step, whose texts are plain scalars.
The order of the entries of the step is left open, and so is how the names are written. -/
def HasOneStep (text : String) (s : Step) : Prop :=
  ∃ k kind fs es, HasEntries none text [(k, .sequence {} [.mapping {} es])] ∧
    IsText k stepsKey ∧ NamesKind kind s.kind ∧
    List.Forall₂ IsPlainEntry fs (s.kind.fieldNames.zip s.fields) ∧ es.Perm (kind :: fs)

/-- **A step is the words that are written**, or it is refused because one of them is no text. -/
theorem ofYaml_oneStep_iff {text : String} {s : Step} (h : HasOneStep text s) {d : Definition} :
    ofYaml text = .ok d ↔ d = { steps := [s] } ∧ ∀ t ∈ s.fields, resolve t.toList = .text := by
  obtain ⟨k, kind, fs, es, hdocument, hk, hkind, hfs, hes⟩ := h
  have hself (place : Place) : Agree (([] : List (Nat × Node)) = [])
      (Reading.step [] stepRoom place (.mapping {} es)) _ :=
    agree_step stepRoom place (.refl [] _)
  have hstep {place : Place} {s' : Step} :
      Yields (Reading.step [] stepRoom place (.mapping {} es)) s' ↔
        s' = s ∧ ∀ t ∈ s.fields, resolve t.toList = .text := by
    have hroom : stepRoom = stepRoom - 1 + 1 := rfl
    have hsame : s'.kind = s.kind ∧ s'.fields = s.fields ↔ s' = s := by
      refine ⟨fun ⟨hk, hf⟩ => ?_, fun h => ⟨by rw [h], by rw [h]⟩⟩
      have hfields := s'.ofFields?_fields
      rw [hk, hf, s.ofFields?_fields] at hfields
      exact (Option.some.inj hfields).symm
    rw [hroom, yields_step_iff s.length_fields.symm hkind hfs hes, ← and_assoc, hsame]
  have hlist {place : Place} : Agree (([] : List (Nat × Node)) = [])
      (list [] (Reading.step [] stepRoom) place (.sequence {} [.mapping {} es])) _ :=
    agree_list (agree_step stepRoom) place (.refl [] _)
  rw [ofYaml_entry_iff hdocument hk rfl]
  simp only [hlist.yields_map_iff, yields_list_singleton_iff hself, hstep]
  constructor
  · rintro ⟨_, ⟨_, ⟨s', ⟨rfl, hall⟩, rfl⟩, rfl⟩, rfl⟩
    exact ⟨rfl, hall⟩
  · rintro ⟨rfl, hall⟩
    exact ⟨_, ⟨_, ⟨s, ⟨rfl, hall⟩, rfl⟩, rfl⟩, rfl⟩

/-! ### Words -/

theorem isNull_word_iff {t : String} (ht : PlainWord t.toList) :
    (t.isEmpty || isNull t.toList) = true ↔ t ∈ ["null", "Null", "NULL"] := by
  obtain ⟨c, r, hcr, hc⟩ := ht.exists_cons
  have hempty : t.isEmpty = false := by
    rw [String.isEmpty_eq_false_iff]
    rintro rfl
    cases hcr
  rw [hempty, Bool.false_or, hcr, isNull_iff hc, ← hcr]
  simp only [List.mem_cons, List.not_mem_nil, or_false, String.toList_inj]

/-- The one step of a definition, written in lines. -/
theorem hasOneStep_lines {t : String} (ht : PlainWord t.toList) :
    HasOneStep ("steps:\n- type: user\n  id: " ++ t ++ "\n") (.user t) := by
  have hsteps : KeyText stepsKey.toList := by decide
  have htype : KeyText Step.kindField.toList := by decide
  have huser : PlainWord StepKind.user.name.toList := by decide
  have hid : KeyText "id".toList := by decide
  have htext : "steps:\n- type: user\n  id: "
      = stepsKey ++ ":\n- " ++ Step.kindField ++ ": " ++ StepKind.user.name ++ "\n  " ++ "id"
        ++ ": " := by decide
  have hname {s : String} (hs : resolve s.toList = .text) : IsText (plainNode s) s :=
    isText_plainNode_iff.mpr ⟨rfl, hs⟩
  have hkind : NamesKind (plainNode Step.kindField, plainNode StepKind.user.name) .user :=
    ⟨hname (by decide), {}, .plain, rfl⟩
  have hentry : IsPlainEntry (plainNode "id", plainNode t) ("id", t) := ⟨hname (by decide), rfl⟩
  rw [htext]
  exact ⟨_, _, _, _, hasEntries_listLines hsteps htype huser hid ht, hname (by decide), hkind,
    .cons hentry .nil, .rfl⟩

/-- **A word is taken as it is written, or refused.**  On the line of the author any word stands
for itself, but for the spellings of null.  As the user of a step it stands for itself if it
spells no null, no boolean and no number, and otherwise there is no definition in the text. -/
theorem words_as_written {t : String} (ht : PlainWord t.toList) :
    (∀ e ∈ ["", "\n"], ofYaml ("author: " ++ t ++ e)
      = .ok { author := if t ∈ ["null", "Null", "NULL"] then none else some t }) ∧
    (∀ text, HasOneStep text (.user t) →
      ((∃ d, ofYaml text = .ok d) ↔ ¬SpellsValue t.toList) ∧
        ∀ d, ofYaml text = .ok d → d = { steps := [.user t] }) ∧
    HasOneStep ("steps:\n- type: user\n  id: " ++ t ++ "\n") (.user t) := by
  refine ⟨fun e he => ?_, fun text h => ?_, hasOneStep_lines ht⟩
  · have hkey : KeyText authorKey.toList := by decide
    have htext : "author: " = authorKey ++ ": " := by decide
    have hline := hasEntries_line hkey ht (e := e) (by simpa using he)
    have hauthor := ofYaml_author hline (isText_plainNode_iff.mpr ⟨rfl, by decide⟩)
    rw [htext]
    simpa only [isNull_word_iff ht] using hauthor
  · obtain ⟨c, r, hcr, hc⟩ := ht.exists_cons
    have htext : (∀ s ∈ (Step.user t).fields, resolve s.toList = .text) ↔
        ¬SpellsValue t.toList := by
      rw [hcr, ← resolve_eq_text_iff hc, ← hcr]
      simp [Step.fields]
    simp only [ofYaml_oneStep_iff h, htext]
    refine ⟨⟨?_, fun h => ⟨_, rfl, h⟩⟩, fun d hd => hd.1⟩
    rintro ⟨_, -, h⟩
    exact h

theorem ids_as_written :
    PlainWord "0x1F".toList ∧ PlainWord "0700".toList ∧
    ofYaml "author: 0x1F\n" = .ok { author := some "0x1F" } ∧
    (¬∃ d, ofYaml "steps:\n- type: user\n  id: 0x1F\n" = .ok d) ∧
    ofYaml "steps:\n- type: user\n  id: 0700\n" = .ok { steps := [.user "0700"] } := by
  have hnumber : PlainWord "0x1F".toList := by decide
  have hdigits : PlainWord "0700".toList := by decide
  obtain ⟨hauthor, hrefused, hnumberStep⟩ := words_as_written hnumber
  obtain ⟨-, hread, hdigitsStep⟩ := words_as_written hdigits
  have hvalue : SpellsValue "0x1F".toList := .int (.hexadecimal rfl) (by decide)
  -- the digits after a leading zero are no number
  have htext : ¬SpellsValue "0700".toList := (resolve_eq_text_iff rfl).mp (by decide)
  refine ⟨hnumber, hdigits, hauthor "\n" (by simp), fun h => ?_, ?_⟩
  · exact (hrefused _ hnumberStep).1.mp h hvalue
  · obtain ⟨d, hd⟩ := (hread _ hdigitsStep).1.mpr htext
    rwa [(hread _ hdigitsStep).2 d hd] at hd

end Definition

end ImageRecipe
