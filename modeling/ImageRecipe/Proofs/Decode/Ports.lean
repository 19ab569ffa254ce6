import ImageRecipe.Proofs.Build.Keywords
import ImageRecipe.Proofs.Decode.Verbatim
import ImageRecipe.Proofs.Yaml.WrittenNumbers

/-!
# Ports from the text to the output

A port is written as a number, and a number reaches the outputs unchanged or not
at all.  A document with nothing but a port is a definition if the number has 16
bits (`Definition.ofYaml_port_iff`), and then the port is that number, in
whatever radix it was written.  The plan exposes it unless it is 0, and so do
the Dockerfile and the script, where it stands in decimal
(`Definition.port_as_written`).
-/

namespace ImageRecipe

open Decode Number Yaml

/-! ### Reading -/

namespace Decode.Reading

variable {place : Place}

/-- **A port is the number that a plain scalar spells**, if it has 16 bits. -/
theorem yields_port_plainNode_iff {t : String} {p : UInt16} :
    Yields (port [] place (plainNode t)) p ↔ readNat t.toList = some p.toNat := by
  have hspells : spells "int" {} .plain = true := rfl
  have hfollow : follow [] (plainNode t) = pure (plainNode t) := rfl
  rw [port, Yields.within_iff, hfollow, pure_bind]
  simp only [hspells, if_true]
  cases readNat t.toList with
  | none => exact iff_of_false (Yields.not_throw _) (Option.some_ne_none _).symm
  | some k =>
    rw [Option.some.injEq, Option.filter_some]
    by_cases hk : k < 65536
    · have hbits : k < bits 64 := Nat.lt_trans hk (by decide)
      simp only [decide_eq_true hbits, if_true, hk, Yields.pure_iff]
      constructor
      · rintro rfl
        exact (UInt16.toNat_ofNat_of_lt' hk).symm
      · rintro rfl
        exact UInt16.ofNat_toNat
    · have hne : k ≠ p.toNat := fun h => hk (h ▸ p.toNat_lt)
      rw [iff_false_right hne]
      -- the two refusals differ in what they say
      by_cases hbits : k < bits 64
      · simp only [decide_eq_true hbits, if_true, hk, if_false]
        exact Yields.not_throw _
      · simp only [decide_eq_false hbits, Bool.false_eq_true, if_false]
        exact Yields.not_throw _

/-- **What may be absent is read from a plain scalar**, if that is not taken for an
absence. -/
theorem yields_optional_plainNode_iff {α : Type} {free : Prop}
    {read : Place → Node → Reading α} {t : String}
    (hself : Agree free (read place (plainNode t)) (read place (plainNode t)))
    (hpresent : IsPresent (plainNode t)) {o : Option α} :
    Yields (optional [] read place (plainNode t)) o ↔
      ∃ x, Yields (read place (plainNode t)) x ∧ some x = o := by
  have hread : optional [] read place (plainNode t)
      = if t.isEmpty || isNull t.toList then pure none else some <$> read place (plainNode t) := rfl
  rw [hread, hpresent.2 rfl, if_neg Bool.false_ne_true, hself.yields_map_iff]

end Decode.Reading

namespace Definition

open Reading

theorem exists_toNat_eq_iff {n : Int} :
    (∃ p : UInt16, (p.toNat : Int) = n) ↔ 0 ≤ n ∧ n ≤ 65535 := by
  constructor
  · rintro ⟨p, rfl⟩
    have hp : p.toNat < 65536 := p.toNat_lt
    omega
  · rintro ⟨hpos, hle⟩
    have hlt : n.toNat < 65536 := by omega
    refine ⟨UInt16.ofNat n.toNat, ?_⟩
    rw [UInt16.toNat_ofNat_of_lt' hlt, Int.toNat_of_nonneg hpos]

/-- **A document with nothing but a port** is a definition if the number that is written has 16
bits, and then the port is that number. -/
theorem ofYaml_port_iff {n : Int} {t e : String} (ht : Written n t.toList)
    (he : e = "" ∨ e = "\n") {d : Definition} :
    ofYaml ("port: " ++ t ++ e) = .ok d ↔
      ∃ p : UInt16, (p.toNat : Int) = n ∧ { port := some p } = d := by
  have hkey : KeyText portKey.toList := by decide
  have hname : IsText (plainNode portKey) portKey := isText_plainNode_iff.mpr ⟨rfl, by decide⟩
  have htext : "port: " = portKey ++ ": " := by decide
  have hread (place : Place) := agree_port place (.refl [] (plainNode t))
  have hoptional (place : Place) := agree_optional agree_port place (.refl [] (plainNode t))
  rw [htext, ofYaml_entry_iff (ht.unquoted.hasEntries_line hkey he) hname rfl]
  simp only [(hoptional _).yields_map_iff, yields_optional_plainNode_iff (hread _) ht.isPresent,
    yields_port_plainNode_iff, ht.readNat_eq_some_iff]
  constructor
  · rintro ⟨_, ⟨_, ⟨p, hp, rfl⟩, rfl⟩, rfl⟩
    exact ⟨p, hp, rfl⟩
  · rintro ⟨p, hp, rfl⟩
    exact ⟨_, ⟨_, ⟨p, hp, rfl⟩, rfl⟩, rfl⟩

/-- **A port is taken as it is written, up to the outputs.**  It is accepted if it has 16 bits, and
then it is the number that is written, in whatever radix.  The plan, the Dockerfile and the script
expose it once, in decimal, unless it is 0. -/
theorem port_as_written {n : Int} {t : String} (ht : Written n t.toList) :
    ∀ e ∈ ["", "\n"],
      ((∃ d, ofYaml ("port: " ++ t ++ e) = .ok d) ↔ 0 ≤ n ∧ n ≤ 65535) ∧
      ∀ d, ofYaml ("port: " ++ t ++ e) = .ok d →
        ∃ p : UInt16, (p.toNat : Int) = n ∧ d = { port := some p } ∧
          ∀ identity, ∃ s, Spec.ofDefinition d identity = .ok s ∧
            s.plan.filter (fun i => i.keyword = "EXPOSE") = (if 1 ≤ n then [.expose p] else []) ∧
            (Text.lines s.dockerfile).filter (fun line => Text.firstWord line = "EXPOSE")
              = (if 1 ≤ n then ["EXPOSE " ++ .ofList (signedDecimal n)] else []) ∧
            ∀ image, (s.script image).filter (fun line => Script.role line = .operation "EXPOSE")
              = if 1 ≤ n then [Script.config "--port" (.ofList (signedDecimal n)) identity]
                else [] := by
  intro e he
  have he' : e = "" ∨ e = "\n" := by simpa using he
  simp only [ofYaml_port_iff ht he']
  refine ⟨?_, ?_⟩
  · rw [← exists_toNat_eq_iff]
    exact ⟨fun ⟨_, p, hp, _⟩ => ⟨p, hp⟩, fun ⟨p, hp⟩ => ⟨_, p, hp, rfl⟩⟩
  · rintro _ ⟨p, rfl, rfl⟩
    refine ⟨p, rfl, rfl, fun identity => ⟨⟨identity, { port := some p }⟩, rfl, ?_⟩⟩
    obtain ⟨hplan, hdockerfile, hscript⟩ :=
      Spec.exposed_in_outputs ⟨identity, { port := some p }⟩
    have hexposed : exposed { port := some p } = if 1 ≤ (p.toNat : Int) then [p] else [] := by
      have hzero : p ≠ 0 ↔ 1 ≤ (p.toNat : Int) := by
        rw [ne_eq, ← UInt16.toNat_inj, UInt16.toNat_zero]
        omega
      rw [exposed, Option.filter_some]
      simp only [hzero, decide_eq_true_eq]
      split
      · rfl
      · rfl
    rw [hplan, hdockerfile rfl, hexposed]
    simp only [hscript, hexposed]
    split
    · exact ⟨rfl, rfl, fun _ => rfl⟩
    · exact ⟨rfl, rfl, fun _ => rfl⟩

/-- A number of 65 bits is refused, though its last 16 bits are those of a port. -/
theorem hexadecimal_port_as_written :
    Written 8080 "0x1F90".toList ∧ Written (2 ^ 64 + 8080) "18446744073709559696".toList ∧
    Written (-1) "-1".toList ∧
    ofYaml "port: 0x1F90\n" = .ok { port := some 8080 } ∧
    (¬∃ d, ofYaml "port: 18446744073709559696" = .ok d) ∧ (¬∃ d, ofYaml "port: -1" = .ok d) ∧
    ∃ s, Spec.ofDefinition { port := some 8080 } "c0" = .ok s ∧
      (Text.lines s.dockerfile).filter (fun line => Text.firstWord line = "EXPOSE")
        = ["EXPOSE 8080"] ∧
      (s.script "out").filter (fun line => Script.role line = .operation "EXPOSE")
        = ["buildah config --port 8080 c0"] := by
  have hport : Written 8080 "0x1F90".toList := by
    have hradix : ('x', 16) ∈ radixLetters := by decide
    have hdigits : DigitsOf 16 8080 "1F90".toList := ⟨0, by decide⟩
    exact .prefixed hradix hdigits
  have hgreat : Written (2 ^ 64 + 8080) "18446744073709559696".toList := by
    have htext : "18446744073709559696".toList = signedDecimal (2 ^ 64 + 8080) := by decide
    exact htext ▸ .decimal _
  have hnegative : Written (-1) "-1".toList := .decimal (-1)
  obtain ⟨hread, houtputs⟩ := port_as_written hport "\n" (by simp)
  obtain ⟨d, hd⟩ := hread.mpr (by decide)
  obtain ⟨p, hp, rfl, hspecs⟩ := houtputs d hd
  obtain rfl : p = 8080 := UInt16.toNat_inj.mp (Int.natCast_inj.mp hp)
  obtain ⟨s, hs, -, hdockerfile, hscript⟩ := hspecs "c0"
  refine ⟨hport, hgreat, hnegative, hd, fun h => ?_, fun h => ?_, s, hs, hdockerfile, hscript "out"⟩
  · exact absurd ((port_as_written hgreat "" (by simp)).1.mp h) (by decide)
  · exact absurd ((port_as_written hnegative "" (by simp)).1.mp h) (by decide)

end Definition

end ImageRecipe
