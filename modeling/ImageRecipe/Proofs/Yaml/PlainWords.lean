import ImageRecipe.Proofs.Yaml.Bare
import ImageRecipe.Proofs.Yaml.Document

/-!
# Documents of plain words

Two documents that are written by hand and not by the printer: a key with a
word on one line, and a list of one mapping that has two words.  The printer
would quote a word that spells a number; here every word stands as it is, and
all that the document says of it is its spelling.
-/

namespace ImageRecipe.Yaml

variable {k w : List Char}

/-! ### Words on a line -/

/-- A word that can stand without quotes, such as a plain word or a number with a sign. -/
structure Unquoted (w : List Char) : Prop where
  fits : fitsPlain w = true
  unspaced : ' ' ∉ w

theorem PlainWord.unquoted (h : PlainWord w) : Unquoted w :=
  ⟨h.fitsPlain, h.notMem (by decide)⟩

/-- A word is read up to the end of the text. -/
theorem Unquoted.plainScalar_end (hw : Unquoted w) (margin i l c : Nat) :
    plainScalar false margin ⟨w, i, l, c⟩
      = some (w, ⟨[], i + w.length, l, c + w.length⟩, false) := by
  have htail := PlainTail.of_fitsPlain hw.fits
  have hchunk : plainChunk false (w ++ []) = some w := by
    refine plainChunk_append (fun x hx => ⟨?_, htail.unbroken x hx⟩) (fun a b hab => ?_) rfl
    · rw [Bool.eq_false_iff]
      intro hspace
      exact hw.unspaced (htail.spaced x hx hspace ▸ hx)
    · rw [List.append_nil]
      exact (hab ▸ htail).colon
  have hskip := Cursor.skip_append w [] i l c
  rw [List.append_nil] at hchunk hskip
  simp only [plainScalar, hchunk, Option.bind_eq_bind, Option.bind_some, hskip,
    plainRest_solid content_nil.solid]
  simp

namespace Scan

variable {s : Scan} {n : Nat} {indents indents' : List Nat} {tokens tokens' : List Token}

/-- A word at the end of the text. -/
theorem Ready.lastWord {p : Nat} {allowed : Bool} (h : Ready s w n allowed (p :: indents) tokens)
    (hw : Unquoted w) (hn : p < n) :
    ∃ t, Leads s t ∧
      Ready t [] (n + w.length) false (p :: indents) (.scalar .plain w :: tokens) := by
  have hstart : PlainStart w := by
    simpa using PlainStart.of_fitsPlain hw.fits []
  have hlength : 0 < w.length := by
    obtain ⟨x, r, rfl, -⟩ := hstart
    exact Nat.succ_pos _
  refine h.leads (by simpa using hn.le) (by simp) fun i l key hkey => ?_
  obtain ⟨key', hkey', hsave⟩ := exists_saveKey hkey (c := ⟨w, i, l, n⟩) hn indents allowed tokens
  refine ⟨⟨[], i + w.length, l, n + w.length⟩, false, key', hkey', ?_, hlength, ?_⟩
  · rw [token_plain hstart (by simp) (Or.inl (Nat.ne_of_gt (Nat.zero_lt_of_lt hn))),
      plain_outside hsave (hw.plainScalar_end _ i l n)]
  · exact lands_content content_nil false 0 _ l _

/-- Behind a key and its colon the word follows. -/
theorem Ready.keyOfWord {r : List Char}
    (h : Ready s (k ++ ':' :: ' ' :: (w ++ r)) n true indents tokens) (hk : KeyText k)
    (hw : Unquoted w) (ho : Opens n indents tokens indents' tokens') :
    ∃ t m, Leads s t ∧ n < m ∧ Ready t (w ++ r) m false (n :: indents')
      (.value :: .scalar .plain k :: .key :: tokens') := by
  obtain ⟨i, l, c, hc, hst⟩ := h.key hk rfl ho
  exact ⟨_, c + 1, hst, Nat.lt_succ_of_lt hc,
    (lands_content (content_of_fitsPlain hw.fits r) false 1 i l c).ready droppable_none⟩

/-- **A key and a word on a line of their own.** -/
theorem Ready.wordLine {r : List Char} {m : Nat}
    (h : Ready s (k ++ ':' :: ' ' :: (w ++ '\n' :: (spaces m ++ r))) n true indents tokens)
    (hk : KeyText k) (hw : Unquoted w) (hr : Content r) (hm : m ≤ n)
    (ho : Opens n indents tokens indents' tokens') :
    ∃ t, Leads s t ∧ Ready t r m true (n :: indents')
      (.scalar .plain w :: .value :: .scalar .plain k :: .key :: tokens') := by
  obtain ⟨t, c, hst, hc, ht⟩ := h.keyOfWord hk hw ho
  have ht' : Ready t (w ++ ['\n'] ++ (spaces m ++ r)) c false (n :: indents')
      (.value :: .scalar .plain k :: .key :: tokens') := by
    simpa using ht
  obtain ⟨u, htu, hu⟩ := ht'.plain hw.fits hr hm hc
  exact ⟨u, hst.trans htu, hu⟩

/-- Behind a key and its colon the first item of a list starts on the next line. -/
theorem Ready.keyOfList {r : List Char}
    (h : Ready s (k ++ ':' :: '\n' :: (spaces n ++ '-' :: ' ' :: r)) n true indents tokens)
    (hk : KeyText k) (hr : Content r) (ho : Opens n indents tokens indents' tokens') :
    ∃ t, Leads s t ∧ Ready t r (n + 2) true (n :: indents')
      (.blockEntry :: .value :: .scalar .plain k :: .key :: tokens') := by
  obtain ⟨i, l, c, -, hst⟩ := h.key hk rfl ho
  have hdash : Content ('-' :: ' ' :: r) := content_cons.mpr (by decide)
  obtain ⟨t, hct, ht⟩ := ((lands_newline hdash false n i l c).ready droppable_none).entry hr
  exact ⟨t, hst.trans hct, ht⟩

end Scan

/-! ### One line -/

/-- **The tokens of one line**, with or without its end. -/
theorem tokens_line (hk : KeyText k) (hw : Unquoted w) {e : List Char}
    (he : e = [] ∨ e = ['\n']) : tokens (k ++ ':' :: ' ' :: (w ++ e))
      = [.blockMappingStart, .key, .scalar .plain k, .value, .scalar .plain w, .blockEnd,
          .streamEnd] := by
  have hmarks : isAllowed ':' = true ∧ isAllowed ' ' = true ∧ isAllowed '\n' = true := by decide
  have hall : (k ++ ':' :: ' ' :: (w ++ e)).all isAllowed = true := by
    rcases he with rfl | rfl <;> simp [all_key hk, all_fitsPlain hw.fits, hmarks]
  have hread (s : Scan) (hs : s.Ready (k ++ ':' :: ' ' :: (w ++ e)) 0 true [] []) :
      ∃ t n allowed, Scan.Leads s t ∧ t.Ready [] n allowed [0]
        [.scalar .plain w, .value, .scalar .plain k, .key, .blockMappingStart] := by
    rcases he with rfl | rfl
    · obtain ⟨t, n, hst, hn, ht⟩ := hs.keyOfWord hk hw (.first (by simp))
      rw [List.append_nil] at ht
      obtain ⟨u, htu, hu⟩ := ht.lastWord hw hn
      exact ⟨u, _, _, hst.trans htu, hu⟩
    · obtain ⟨t, hst, ht⟩ := Scan.Ready.wordLine (m := 0) (r := []) hs hk hw content_nil le_rfl
        (.first (by simp))
      exact ⟨t, _, _, hst, ht⟩
  exact tokens_eq (content_key hk _) hall hread

/-! ### A list of one mapping -/

def listLines (list k w k' w' : List Char) : List Char :=
  list ++ ':' :: '\n' :: (spaces 0 ++ '-' :: ' ' :: (k ++ ':' :: ' ' :: (w ++ '\n' :: (spaces 2
    ++ (k' ++ ':' :: ' ' :: (w' ++ '\n' :: (spaces 0 ++ [])))))))

/-- **The tokens of a list of one mapping.** -/
theorem tokens_listLines {list k' w' : List Char} (hlist : KeyText list) (hk : KeyText k)
    (hw : PlainWord w) (hk' : KeyText k') (hw' : PlainWord w') :
    tokens (listLines list k w k' w')
      = [.blockMappingStart, .key, .scalar .plain list, .value, .blockEntry, .blockMappingStart,
          .key, .scalar .plain k, .value, .scalar .plain w, .key, .scalar .plain k', .value,
          .scalar .plain w', .blockEnd, .blockEnd, .streamEnd] := by
  have hall : (listLines list k w k' w').all isAllowed = true := by
    have hmarks : isAllowed ':' = true ∧ isAllowed ' ' = true ∧ isAllowed '\n' = true ∧
        isAllowed '-' = true := by decide
    simp [listLines, all_key hlist, all_key hk, all_key hk', all_fitsPlain hw.fitsPlain,
      all_fitsPlain hw'.fitsPlain, all_spaces, hmarks]
  have hread (s : Scan) (hs : s.Ready (listLines list k w k' w') 0 true [] []) :
      ∃ t n allowed, Scan.Leads s t ∧ t.Ready [] n allowed [0]
        [.blockEnd, .scalar .plain w', .value, .scalar .plain k', .key, .scalar .plain w, .value,
          .scalar .plain k, .key, .blockMappingStart, .blockEntry, .value, .scalar .plain list,
          .key, .blockMappingStart] := by
    obtain ⟨t, hst, ht⟩ := Scan.Ready.keyOfList hs hlist (content_key hk _) (.first (by simp))
    obtain ⟨u, htu, hu⟩ := ht.wordLine hk hw.unquoted (content_key hk' _) le_rfl (.first (by simp))
    obtain ⟨v, huv, hv⟩ := hu.wordLine hk' hw'.unquoted content_nil (Nat.zero_le 2) .next
    exact ⟨v, _, _, hst.trans (htu.trans huv), hv.close Nat.two_pos⟩
  exact tokens_eq (content_key hlist _) hall hread

/-! ### The documents -/

abbrev plainNode (s : String) : Node :=
  .scalar {} .plain s

/-- **A line is a document of one entry.** -/
theorem Unquoted.hasEntries_line {k w : String} (hw : Unquoted w.toList) (hk : KeyText k.toList)
    {e : String} (he : e = "" ∨ e = "\n") :
    HasEntries none (k ++ ": " ++ w ++ e) [(plainNode k, plainNode w)] := by
  have hend : e.toList = [] ∨ e.toList = ['\n'] := by
    rcases he with rfl | rfl
    · exact .inl rfl
    · exact .inr rfl
  have hload : Document.load (k ++ ": " ++ w ++ e)
      = ⟨.mapping {} [(plainNode (String.ofList k.toList), plainNode (String.ofList w.toList))],
          true⟩ := by
    have htext : (k ++ ": " ++ w ++ e).toList
        = k.toList ++ ':' :: ' ' :: (w.toList ++ e.toList) := by
      simp
    rw [Document.load, htext, tokens_line hk hw hend]
    rfl
  simp only [String.ofList_toList] at hload
  exact ⟨by rw [hload], by rw [hload]; rfl, by rw [hload]; rfl⟩

theorem hasEntries_line {k w : String} (hk : KeyText k.toList) (hw : PlainWord w.toList)
    {e : String} (he : e = "" ∨ e = "\n") :
    HasEntries none (k ++ ": " ++ w ++ e) [(plainNode k, plainNode w)] :=
  hw.unquoted.hasEntries_line hk he

/-- **The lines of a list are a document of one entry**, whose value is the list. -/
theorem hasEntries_listLines {list k w k' w' : String} (hlist : KeyText list.toList)
    (hk : KeyText k.toList) (hw : PlainWord w.toList) (hk' : KeyText k'.toList)
    (hw' : PlainWord w'.toList) :
    HasEntries none (list ++ ":\n- " ++ k ++ ": " ++ w ++ "\n  " ++ k' ++ ": " ++ w' ++ "\n")
      [(plainNode list, .sequence {} [.mapping {}
        [(plainNode k, plainNode w), (plainNode k', plainNode w')]])] := by
  have hload : Document.load
      (list ++ ":\n- " ++ k ++ ": " ++ w ++ "\n  " ++ k' ++ ": " ++ w' ++ "\n")
        = ⟨.mapping {} [(plainNode (String.ofList list.toList), .sequence {} [.mapping {}
            [(plainNode (String.ofList k.toList), plainNode (String.ofList w.toList)),
              (plainNode (String.ofList k'.toList), plainNode (String.ofList w'.toList))]])],
            true⟩ := by
    have htext : (list ++ ":\n- " ++ k ++ ": " ++ w ++ "\n  " ++ k' ++ ": " ++ w' ++ "\n").toList
        = listLines list.toList k.toList w.toList k'.toList w'.toList := by
      simp [listLines, spaces]
    rw [Document.load, htext, tokens_listLines hlist hk hw hk' hw']
    rfl
  simp only [String.ofList_toList] at hload
  exact ⟨by rw [hload], by rw [hload]; rfl, by rw [hload]; rfl⟩

end ImageRecipe.Yaml
