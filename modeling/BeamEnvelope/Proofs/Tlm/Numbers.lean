import BeamEnvelope.Proofs.Glps.Bindings
import BeamEnvelope.Tlm.Record

/-!
# Numbers that keep their spelling

The numbers of a record are copied as they are spelled. A copy that starts with no plus sign is read
as the double that the record's word denotes, the sign apart as an operator of its own. An exponent
written behind a word without one multiplies its number exactly.
-/

namespace BeamEnvelope

namespace Decimal

variable {cs : List Char} {d : Decimal} {x : Float} {word : String}

/-- The words for the infinities and for no number denote nothing finite. -/
theorem exists_digits_of_readUnsigned? (h : readUnsigned? cs = some x) (hx : x.isFinite = true) :
    ∃ d, readDigits? cs = some d ∧ d.toFloat = x := by
  unfold readUnsigned? at h
  dsimp only at h
  split at h
  · obtain rfl := Option.some.inj h
    exact absurd hx (by decide +kernel)
  · split at h
    · obtain rfl := Option.some.inj h
      exact absurd hx (by decide +kernel)
    · exact Option.map_eq_some_iff.1 h

/-- A word without a plus sign denotes a number in digits or the opposite of one. -/
theorem exists_digits_of_read? (h : read? word = some x) (hx : x.isFinite = true)
    (hplus : word.toList.head? ≠ some '+') : ∃ cs d, readDigits? cs = some d ∧
      (word.toList = cs ∧ x = d.toFloat ∨ word.toList = '-' :: cs ∧ x = -d.toFloat) := by
  rw [read?] at h
  generalize word.toList = cs at h hplus
  unfold readChars? at h
  split at h
  · rename_i cs
    obtain ⟨y, hy, rfl⟩ := Option.map_eq_some_iff.1 h
    rw [Double.isFinite_neg] at hx
    obtain ⟨d, hd, rfl⟩ := exists_digits_of_readUnsigned? hy hx
    exact ⟨cs, d, hd, .inr ⟨rfl, rfl⟩⟩
  · exact absurd rfl hplus
  · obtain ⟨d, hd, rfl⟩ := exists_digits_of_readUnsigned? h hx
    exact ⟨_, d, hd, .inl ⟨rfl, rfl⟩⟩

theorem read?_of_digits (h : readDigits? cs = some d) :
    read? (String.ofList cs) = some d.toFloat ∧
      read? (String.ofList ('-' :: cs)) = some (-d.toFloat) := by
  obtain ⟨p, rfl⟩ := exists_spelling_of_readDigits? h
  rw [read?, read?, String.toList_ofList, String.toList_ofList, p.readChars?_chars, readChars?,
    p.readUnsigned?_chars, h]
  exact ⟨rfl, rfl⟩

theorem sign_toFloat (d : Decimal) : Double.sign (Double.parts d.toFloat) = .positive := by
  rw [toFloat_eq]
  exact Double.sign_parts_ofParts (Double.sign_nearest _ _)

end Decimal

namespace Glps

open Grammar

variable {rest : List UInt8} {word : String} {x : Float}

theorem numberTokens_of_positive (hx : x.isFinite = true)
    (h : Double.sign (Double.parts x) = .positive) :
    numberTokens x = [.number x] ∧ numberTokens (-x) = [.mark .minus, .number x] := by
  have hfinite : (-x).isFinite = true := (Double.isFinite_neg x).trans hx
  have hnegative : ¬ (-x).toBits < 0x8000000000000000 := by
    rw [← Double.sign_parts_eq_positive hfinite, Double.sign_parts_neg hx h]
    nofun
  rw [numberTokens, if_pos ((Double.sign_parts_eq_positive hx).1 h), numberTokens,
    if_neg hnegative, Double.abs_neg, Double.abs_of_sign_positive h]
  exact ⟨rfl, rfl⟩

/-- A word is read as the number it denotes. -/
theorem lexes_word (h : Decimal.read? word = some x) (hx : x.isFinite = true)
    (hplus : word.toList.head? ≠ some '+') (hrest : EndsNumeral rest) :
    Lexes (bytesOf word ++ rest) (numberTokens x) rest := by
  obtain ⟨cs, d, hd, hword⟩ := Decimal.exists_digits_of_read? h hx hplus
  obtain ⟨p, rfl⟩ := Decimal.exists_spelling_of_readDigits? hd
  have hpositive := Decimal.sign_toFloat d
  have hascii := p.toNat_lt_of_mem_chars
  rw [← String.ofList_toList (s := word)]
  rcases hword with ⟨hword, rfl⟩ | ⟨hword, rfl⟩
  · rw [hword, bytesOf_ofList hascii, (numberTokens_of_positive hx hpositive).1]
    exact lexes_spelling p hd hx hrest
  · -- the sign is no part of the numeral
    rw [Double.isFinite_neg] at hx
    have hminus : ∀ c ∈ '-' :: p.chars, c.toNat < 128 :=
      List.forall_mem_cons.2 ⟨by decide, hascii⟩
    rw [hword, bytesOf_ofList hminus, (numberTokens_of_positive hx hpositive).2]
    exact (lexes_mark .minus).append (lexes_spelling p hd hx hrest)

theorem denotes_word (h : Decimal.read? word = some x) (hx : x.isFinite = true)
    (hplus : word.toList.head? ≠ some '+') : Denotes word x := by
  refine ⟨numberTree x, (nesting_numberTree x).trans (by decide), value?_numberTree hx, ?_⟩
  intro rest hrest
  rw [tokens_numberTree]
  exact lexes_word h hx hplus hrest

theorem isIdentifier_functionName (f : Function) : isIdentifier f.name = true := by
  cases f <;> decide

theorem denotes_call {f : Function} (h : Decimal.read? word = some x) (hx : x.isFinite = true)
    (hplus : word.toList.head? ≠ some '+') (hf : (f.apply x).isFinite = true) :
    Denotes (f.name ++ "(" ++ word ++ ")") (f.apply x) := by
  have hopen : bytesOf "(" = [Mark.openParen.char.toUInt8] := rfl
  have hclose : bytesOf ")" = [Mark.closeParen.char.toUInt8] := rfl
  refine ⟨.term (.unary (.primary (.call f (numberTree x)))), ?_, fun env => ?_, fun rest _ => ?_⟩
  · exact Nat.succ_le_of_lt ((nesting_numberTree x).trans_lt (by decide))
  · simp [Expression.value?, Term.value?, Unary.value?, Primary.value?, value?_numberTree hx,
      result?, finite?, hf]
  · have hends : EndsNumeral (Mark.closeParen.char.toUInt8 :: rest) := by
      intro b hb
      obtain rfl := Option.some.inj hb
      decide
    have hsource : bytesOf (f.name ++ "(" ++ word ++ ")") ++ rest = bytesOf f.name ++
        (Mark.openParen.char.toUInt8 :: (bytesOf word ++ Mark.closeParen.char.toUInt8 :: rest)) := by
      simp [hopen, hclose]
    have htokens : (Expression.term (.unary (.primary (.call f (numberTree x))))).tokens =
        [.name f.name] ++ ([.mark .openParen] ++ (numberTokens x ++ [.mark .closeParen])) := by
      rw [← tokens_numberTree]
      rfl
    rw [hsource, htokens]
    exact (lexes_name_cons (isIdentifier_functionName f) rfl).append ((lexes_mark .openParen).append
      ((lexes_word h hx hplus hends).append (lexes_mark .closeParen)))

end Glps

end BeamEnvelope
