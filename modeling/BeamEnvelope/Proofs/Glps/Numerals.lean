import BeamEnvelope.Proofs.Glps.LongestTokens

/-!
# Numerals and the numbers they spell

How far a numeral goes is decided byte by byte: digits, a point with the digits behind it, and an
exponent if digits follow its letter and its sign. Whatever is cut out in this way spells a number,
also where a letter that starts no exponent is left behind, or where digits stand on one side of the
point only. So a numeral can always be read, and all that its reading can find is that the number is
too large.
-/

namespace BeamEnvelope.Glps

open Bytes

variable {b : UInt8} {bytes rest : List UInt8}

/-- The characters of ASCII bytes. -/
def Bytes.chars (bytes : List UInt8) : List Char := bytes.map fun b => Char.ofNat b.toNat

theorem toList_ascii (bytes : List UInt8) : (ascii bytes).toList = chars bytes :=
  String.toList_ofList

theorem chars_append (xs ys : List UInt8) : chars (xs ++ ys) = chars xs ++ chars ys :=
  List.map_append

theorem isDigit_char (h : isDigit b = true) : (Char.ofNat b.toNat).isDigit = true := by
  rw [isDigit, Bool.and_eq_true, decide_eq_true_iff, decide_eq_true_iff, UInt8.le_iff_toNat_le,
    UInt8.le_iff_toNat_le] at h
  rw [Char.isDigit_iff_toNat, toNat_ofNat_of_byte]
  exact h

theorem isDigit_of_mem_chars (h : ∀ b ∈ bytes, isDigit b = true) :
    ∀ c ∈ chars bytes, c.isDigit = true := by
  intro c hc
  obtain ⟨b, hb, rfl⟩ := List.mem_map.1 hc
  exact isDigit_char (h b hb)

theorem take_length_takeWhile (p : UInt8 → Bool) (bytes : List UInt8) :
    bytes.take (bytes.takeWhile p).length = bytes.takeWhile p :=
  (List.prefix_iff_eq_take.1 (List.takeWhile_prefix p)).symm

theorem take_signWidth (bytes : List UInt8) :
    chars (bytes.take (signWidth bytes)) = [] ∨ chars (bytes.take (signWidth bytes)) = ['+'] ∨
      chars (bytes.take (signWidth bytes)) = ['-'] := by
  cases bytes with
  | nil => exact .inl rfl
  | cons s bytes =>
    by_cases hplus : s = 43
    · subst hplus
      exact .inr (.inl rfl)
    · by_cases hminus : s = 45
      · subst hminus
        exact .inr (.inr rfl)
      · simp [signWidth, hplus, hminus, chars]

theorem isExponent_take (bytes : List UInt8) :
    Decimal.IsExponent (chars (bytes.take (exponentWidth bytes))) := by
  cases bytes with
  | nil => exact .inl rfl
  | cons e bytes =>
    rw [exponentWidth_cons]
    split
    · exact .inl rfl
    · rename_i he
      split
      · exact .inl rfl
      · rename_i hdigits
        have hletter : Char.ofNat e.toNat = 'e' ∨ Char.ofNat e.toNat = 'E' := by
          by_cases hlower : e = 101
          · subst hlower
            exact .inl rfl
          · have hupper : e = 69 := by simpa [hlower] using he
            subst hupper
            exact .inr rfl
        have htaken : (e :: bytes).take
            (1 + signWidth bytes + ((bytes.drop (signWidth bytes)).takeWhile isDigit).length) =
            e :: (bytes.take (signWidth bytes) ++
              (bytes.drop (signWidth bytes)).takeWhile isDigit) := by
          rw [Nat.add_assoc, Nat.add_comm 1, List.take_succ_cons, List.take_add,
            take_length_takeWhile]
        rw [htaken]
        refine .inr ⟨_, _, _, congrArg _ (chars_append _ _), hletter, take_signWidth bytes, ?_,
          isDigit_of_mem_chars fun b hb => List.mem_takeWhile_imp hb⟩
        exact fun hnil => hdigits (congrArg List.length (List.map_eq_nil_iff.1 hnil))

/-- Every exponent that can be spelled is read. -/
theorem exists_readExponent? {cs : List Char} (h : Decimal.IsExponent cs) :
    ∃ e, Decimal.readExponent? cs = some e := by
  obtain rfl | ⟨letter, sign, digits, rfl, hletter, hsign, hne, hdigits⟩ := h
  · exact ⟨0, rfl⟩
  · have hall : digits.all Char.isDigit = true := List.all_eq_true.2 hdigits
    have hempty : digits.isEmpty = false := by simpa using hne
    have hmark : ¬ (letter != 'e' && letter != 'E') = true := by
      rcases hletter with rfl | rfl <;> decide
    unfold Decimal.readExponent?
    simp only [hmark, Bool.false_eq_true, if_false]
    rcases hsign with rfl | rfl | rfl
    · -- digits that stand without a sign do not start with one
      obtain ⟨d, ds, rfl⟩ := List.exists_cons_of_ne_nil hne
      have hd := hdigits d List.mem_cons_self
      have hminus : d ≠ '-' := Decimal.ne_of_isDigit hd rfl
      have hplus : d ≠ '+' := Decimal.ne_of_isDigit hd rfl
      simp only [List.nil_append, List.cons.injEq, hminus, hplus, false_and, imp_self, implies_true,
        hempty, hall]
      exact ⟨_, rfl⟩
    · simp [hempty, hall]
    · simp [hempty, hall]

theorem take_fractionWidth (bytes : List UInt8) :
    bytes.head? ≠ some dot ∧ bytes.take (fractionWidth bytes) = [] ∨
      ∃ more, bytes = dot :: more ∧
        bytes.take (fractionWidth bytes) = dot :: more.takeWhile isDigit := by
  cases bytes with
  | nil => exact .inl ⟨nofun, rfl⟩
  | cons b more =>
    by_cases hdot : b = dot
    · subst hdot
      refine .inr ⟨more, rfl, ?_⟩
      rw [fractionWidth, if_pos (beq_self_eq_true dot), Nat.add_comm 1, List.take_succ_cons,
        take_length_takeWhile]
    · refine .inl ⟨by simpa using hdot, ?_⟩
      rw [fractionWidth, if_neg (by simpa using hdot), List.take_zero]

theorem take_numeralWidth (bytes : List UInt8) : bytes.take (numeralWidth bytes) =
    bytes.takeWhile isDigit ++
      (bytes.dropWhile isDigit).take (fractionWidth (bytes.dropWhile isDigit)) ++
      (bytes.drop (decimalWidth bytes)).take (exponentWidth (bytes.drop (decimalWidth bytes))) := by
  rw [numeralWidth_eq, List.take_add, decimalWidth_eq, List.take_add, take_length_takeWhile,
    drop_length_takeWhile]

/-- What is cut out of a source as a numeral spells a number. -/
theorem exists_spelling (h : startsNumeral b rest = true) : ∃ p : Decimal.Spelling,
    p.chars = chars ((b :: rest).take (numeralWidth (b :: rest))) := by
  have hwhole : ∀ c ∈ chars ((b :: rest).takeWhile isDigit), c.isDigit = true :=
    isDigit_of_mem_chars fun b hb => List.mem_takeWhile_imp hb
  have hexponent := isExponent_take ((b :: rest).drop (decimalWidth (b :: rest)))
  rw [startsNumeral, Bool.or_eq_true] at h
  rw [take_numeralWidth, chars_append, chars_append]
  obtain ⟨hpoint, hnone⟩ | ⟨more, hmore, htaken⟩ :=
    take_fractionWidth ((b :: rest).dropWhile isDigit)
  · have hdigit : isDigit b = true := by
      refine h.resolve_right fun hb => hpoint ?_
      obtain rfl : b = dot := by simpa using (Bool.and_eq_true_iff.1 hb).1
      rfl
    rw [hnone]
    refine ⟨⟨_, [], false, _, hwhole, List.forall_mem_nil _, fun _ => rfl, ?_, hexponent⟩, rfl⟩
    rw [List.takeWhile_cons, if_pos hdigit]
    exact List.cons_ne_nil _ _
  · rw [htaken]
    refine ⟨⟨_, chars (more.takeWhile isDigit), true, _, hwhole,
      isDigit_of_mem_chars fun b hb => List.mem_takeWhile_imp hb, Bool.noConfusion, ?_,
      hexponent⟩, rfl⟩
    rcases h with h | h
    · rw [List.takeWhile_cons, if_pos h]
      exact List.cons_ne_nil _ _
    · -- no digit stands in front of the point, so one stands behind it
      obtain ⟨hb, hdigit⟩ := Bool.and_eq_true_iff.1 h
      obtain rfl : b = dot := by simpa using hb
      obtain rfl : rest = more := (List.cons.inj hmore).2
      cases rest with
      | nil => cases hdigit
      | cons d ds =>
        have hd : isDigit d = true := hdigit
        simp [chars, hd]

theorem exists_read? (h : startsNumeral b rest = true) : ∃ x,
    Decimal.read? (ascii ((b :: rest).take (numeralWidth (b :: rest)))) = some x := by
  obtain ⟨p, hp⟩ := exists_spelling h
  obtain ⟨e, he⟩ := exists_readExponent? p.isExponent
  rw [Decimal.read?, toList_ascii, ← hp, p.readChars?_chars, p.readDigits?_chars, he]
  exact ⟨_, rfl⟩

theorem numeralWidth_pos (h : startsNumeral b rest = true) : 0 < numeralWidth (b :: rest) := by
  obtain ⟨p, hp⟩ := exists_spelling h
  obtain ⟨c, cs, hcs, -⟩ := p.exists_cons_chars
  by_contra hzero
  rw [Nat.eq_zero_of_not_pos hzero, hcs] at hp
  cases hp

theorem toNat_lt_of_mem_numeral (h : startsNumeral b rest = true) :
    ∀ c ∈ (b :: rest).take (numeralWidth (b :: rest)), c.toNat < 128 := by
  obtain ⟨p, hp⟩ := exists_spelling h
  intro c hc
  have hchar : Char.ofNat c.toNat ∈ p.chars := by
    rw [hp]
    exact List.mem_map_of_mem hc
  rw [← toNat_ofNat_of_byte]
  exact p.toNat_lt_of_mem_chars _ hchar

end BeamEnvelope.Glps
