import BeamEnvelope.Proofs.Tlm.Definitions
import BeamEnvelope.Proofs.Tlm.Lines
import BeamEnvelope.Tlm.Conversion

/-!
# Final names

A final name is an identifier, since a number behind an underscore keeps it one. It has no capital
letter of ASCII, since its record was read without regard to case.
-/

namespace BeamEnvelope.Tlm

open Text

variable {cs w : List Char} {words : List String} {r : Record} {accepted : Accepted} {n : Nat}
  {s : String}

def IsLowercase (cs : List Char) : Prop := ∀ c ∈ cs, ¬ IsCapital c

theorem not_isCapital_of_isDigit {c : Char} (h : c.isDigit) : ¬ IsCapital c :=
  fun hcapital => absurd (hcapital.1.trans (Char.isDigit_iff_toNat.1 h).2) (by decide)

theorem subset_of_mem_words (h : w ∈ Text.words cs) : w ⊆ cs := by
  fun_induction Text.words cs with
  | case1 cs hcs => cases h
  | case2 cs c rest hcs ih =>
    have hrest : c :: rest ⊆ cs := hcs ▸ trimStart_subset cs
    rcases List.mem_cons.1 h with rfl | h
    · exact fun d hd => hrest (List.cons_subset_cons c (List.takeWhile_prefix _).subset hd)
    · exact fun d hd =>
        hrest (List.mem_cons_of_mem c ((List.dropWhile_suffix _).subset (ih h hd)))

theorem isLowercase_word (h : IsLowercase cs) (i : Nat) :
    IsLowercase (Record.word ((Text.words cs).map String.ofList) i).toList := by
  rw [Record.word, List.getD_eq_getElem?_getD, List.getElem?_map]
  cases hw : (Text.words cs)[i]? with
  | none => exact fun c hc => absurd hc List.not_mem_nil
  | some w =>
    rw [Option.map_some, Option.getD_some, String.toList_ofList]
    exact fun c hc => h c (subset_of_mem_words (List.mem_of_getElem? hw) hc)

theorem isLowercase_plainName {word : String} (h : IsLowercase word.toList) :
    IsLowercase (Record.plainName word).toList := by
  unfold Record.plainName
  dsimp only
  split
  · rename_i hbehind
    rw [String.toList_ofList]
    intro c hc
    rcases List.mem_append.1 hc with hc | hc
    · exact h c ((List.takeWhile_prefix _).subset hc)
    · rcases List.mem_cons.1 hc with rfl | hc
      · exact fun hcapital => absurd hcapital.2 (by decide)
      · refine h c (List.mem_of_mem_drop (i := (word.toList.takeWhile (· != ':')).length) ?_)
        rw [hbehind]
        exact List.mem_cons_of_mem _ hc
  · exact h

theorem toList_toString (n : Nat) : (toString n).toList = Nat.toDigits 10 n := by
  rw [Nat.toString_eq_repr, Nat.repr, String.toList_ofList]

theorem isIdentifier_numbered (h : Glps.isIdentifier s = true) (n : Nat) :
    Glps.isIdentifier (s ++ "_" ++ toString n) = true := by
  obtain ⟨b, rest, hs, hb, hrest, -⟩ := Glps.isIdentifier_iff.1 h
  have hascii : ∀ c ∈ Nat.toDigits 10 n, c.toNat < 128 :=
    fun c hc => Decimal.toNat_lt_of_isDigit (Decimal.isDigit_of_mem_toDigits c hc)
  have hdigits : bytesOf (toString n) = (Nat.toDigits 10 n).map Char.toUInt8 := by
    rw [← String.ofList_toList (s := toString n), toList_toString, bytesOf_ofList hascii]
  have hdigit : ∀ d ∈ bytesOf (toString n), Glps.Bytes.isDigit d = true := by
    rw [hdigits]
    exact List.forall_mem_map.2 fun c hc =>
      Glps.isDigit_toUInt8 (Decimal.isDigit_of_mem_toDigits c hc)
  have hunderscore : bytesOf "_" = [95] := rfl
  refine Glps.isIdentifier_iff.2 ⟨b, rest ++ 95 :: bytesOf (toString n), ?_, hb, ?_, ?_⟩
  · rw [bytesOf_append, bytesOf_append, hs, hunderscore]
    simp
  · intro c hc
    rcases List.mem_append.1 hc with hc | hc
    · exact hrest c hc
    · rcases List.mem_cons.1 hc with rfl | hc
      · rfl
      · simp [Glps.Bytes.isName, Glps.Bytes.endsName, hdigit c hc]
  · intro hlast
    have hne : bytesOf (toString n) ≠ [] := by
      rw [hdigits]
      exact List.map_eq_nil_iff.not.2 Nat.toDigits_ne_nil
    rw [← List.cons_append, List.getLast?_append_of_ne_nil _ (List.cons_ne_nil _ _),
      List.getLast?_cons, List.getLast?_eq_some_getLast hne, Option.getD_some] at hlast
    have hcolon := hdigit _ (List.getLast_mem hne)
    rw [Option.some.inj hlast] at hcolon
    exact absurd hcolon (by decide)

theorem isIdentifier_finalName (h : Glps.isIdentifier r.name = true) :
    Glps.isIdentifier (finalName accepted r) = true := by
  unfold finalName
  split
  · exact isIdentifier_numbered h _
  · exact h

theorem isLowercase_finalName (h : IsLowercase r.name.toList) :
    IsLowercase (finalName accepted r).toList := by
  unfold finalName
  split
  · rw [String.toList_append, String.toList_append, toList_toString]
    intro c hc
    rcases List.mem_append.1 hc with hc | hc
    · rcases List.mem_append.1 hc with hc | hc
      · exact h c hc
      · obtain rfl := List.mem_singleton.1 hc
        exact fun hcapital => absurd hcapital.2 (by decide)
    · exact not_isCapital_of_isDigit (Decimal.isDigit_of_mem_toDigits c hc)
  · exact h

end BeamEnvelope.Tlm
