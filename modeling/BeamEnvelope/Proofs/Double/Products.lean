import BeamEnvelope.Proofs.Decimal.Nearest

/-!
# Products that stay finite

A rounded number has no larger exponent than a double if it is well below the largest double. So
the product of any double with a number below one is finite.
-/

namespace BeamEnvelope.Double

open Float.Model (Format UnpackedFloat totalExponent)
open Float.Model.UnpackedFloat

variable {s : Sign} {m : ℕ} {e : ℤ} {q : ℚ}

theorem isFinite_ofFields {field fraction : ℕ} (h : field < 2047) :
    (ofFields s field fraction).isFinite = true := by
  rw [ofFields, if_neg (by omega)]
  split_ifs <;> rfl

theorem isFinite_ofParts_zero (s : Sign) : (ofParts (.zero s)).isFinite = true := by
  have hfits : Fits (.zero s) := trivial
  change (parts (ofParts (.zero s))).isFinite = true
  rw [parts_ofParts hfits]
  rfl

/-- What fits the exponents of doubles is packed as a finite one, whatever its mantissa. -/
theorem isFinite_ofParts (hm : 0 < m) (h : e ≤ 971) :
    (ofParts (.finite s m e hm)).isFinite = true := by
  change (unpack binary64 (UnpackedFloat.pack binary64 (.finite s m e hm))).isFinite = true
  have hbias : (e + binary64.exponentBias + ((52 : ℕ) : ℤ)) = e + 1075 := by
    have : ((binary64.exponentBias : ℕ) : ℤ) = 1023 := rfl
    omega
  have hroom : ¬ 2 ^ 11 ≤ (e + 1075).toNat + 1 := by omega
  simp only [UnpackedFloat.pack, hbias, hroom, if_false]
  split_ifs
  · rw [unpack_eq_ofFields, unpackExponent_packComponents]
    have hfield := Nat.mod_le (e + 1075).toNat (2 ^ 11)
    rw [← BitVec.toNat_ofNat] at hfield
    exact isFinite_ofFields (Nat.lt_of_le_of_lt hfield (by omega))
  · rw [unpack_eq_ofFields, unpackExponent_packComponents]
    exact isFinite_ofFields (by decide)

theorem roundedMantissa_le (em : ExtendedMantissa) : em.roundedMantissa ≤ em.mantissa + 1 := by
  obtain ⟨m, r, s⟩ := em
  cases r <;> cases s
  · exact Nat.le_succ m
  · exact Nat.le_succ m
  · exact Nat.add_le_add_left (Nat.le_of_lt_succ (Nat.mod_lt m two_pos)) m
  · exact le_rfl

/-- Rounding adds one place at most. -/
theorem log2_roundedMantissa_le (hq : 0 < q) :
    (extended (q / 2 ^ lastPlace q)).roundedMantissa.log2 ≤ 53 := by
  have hlog : Int.log 2 q ≤ lastPlace q + 52 := by
    rw [lastPlace_eq]
    omega
  have hlt : q < 2 ^ (lastPlace q + 53) := by
    refine (Int.lt_zpow_iff_log_lt one_lt_two hq).2 ?_
    omega
  have hfloor : ⌊q / 2 ^ lastPlace q⌋₊ < 2 ^ 53 := by
    rw [Nat.floor_lt (by positivity), div_lt_iff₀ (by positivity), Nat.cast_pow, Nat.cast_two,
      mul_comm, ← zpow_natCast, ← zpow_add₀ two_ne_zero]
    exact_mod_cast hlt
  have hrounded := roundedMantissa_le (extended (q / 2 ^ lastPlace q))
  rw [mantissa_extended] at hrounded
  generalize (extended (q / 2 ^ lastPlace q)).roundedMantissa = r at *
  by_cases hr : r = 0
  · subst hr
    decide
  · exact Nat.le_of_lt_succ ((Nat.log2_lt hr).2 (by omega))

theorem isFinite_ofParts_nearest (hq : 0 < q) (h : q < 2 ^ (1020 : ℤ)) :
    (ofParts (nearest s q)).isFinite = true := by
  have hlog : Int.log 2 q < 1020 := (Int.lt_zpow_iff_log_lt one_lt_two hq).1 (by rwa [Nat.cast_two])
  have hplace := lastPlace_eq q
  have hshift := shiftToTargetExponent_eq hq (le_refl (lastPlace q))
    (ofMantissaAndAccuracy_accuracy (extended (q / 2 ^ lastPlace q)))
  have hbits := log2_roundedMantissa_le hq
  simp only [nearest, roundWithAccuracy, hshift]
  split_ifs
  · exact isFinite_ofParts_zero s
  · apply isFinite_ofParts
    rw [shiftToTargetExponent, shiftToExponent, targetExponent_eq, totalExponent]
    dsimp only
    omega

/-- A factor well below one keeps every double finite. -/
theorem isFinite_mul {x c : Float} (hx : x.isFinite = true) (hc : IsNormal (parts c) q)
    (hq : q ≤ 2 ^ (-5 : ℤ)) : (x * c).isFinite = true := by
  obtain ⟨n, d, hn, hc, hlarge, rfl⟩ := hc
  change (parts x).isFinite = true at hx
  have hfits := fits_parts x
  rw [ofParts_mul, hc]
  cases hparts : parts x with
  | zero s => exact isFinite_ofParts_zero _
  | infinity s => rw [hparts] at hx; cases hx
  | notANumber => rw [hparts] at hx; cases hx
  | finite s m e hm =>
    rw [hparts] at hfits
    obtain ⟨hcanonical, he⟩ := hfits
    have hsmall : (m : ℚ) * 2 ^ e < 2 ^ (1024 : ℤ) := by
      have hlog := log_mul_two_zpow hm e
      have hpos : (0 : ℚ) < m * 2 ^ e := by positivity
      have hlast := isCanonical_iff.1 hcanonical
      refine (Int.lt_zpow_iff_log_lt one_lt_two hpos).2 ?_
      omega
    have hvalue : (m : ℚ) * 2 ^ e * (n * 2 ^ d) = ((m * n : ℕ) : ℚ) * 2 ^ (e + d) := by
      rw [zpow_add₀ two_ne_zero]
      push_cast
      ring
    -- the product has no fewer bits than a mantissa, so rounding it gives the nearest double
    have hplace : e + d ≤ lastPlace (((m * n : ℕ) : ℚ) * 2 ^ (e + d)) := by
      have hbits : 52 ≤ (m * n).log2 :=
        (Nat.le_log2 (Nat.mul_pos hm hn).ne').2 (le_trans hlarge (Nat.le_mul_of_pos_left n hm))
      rw [lastPlace_eq, log_mul_two_zpow (Nat.mul_pos hm hn)]
      omega
    change (ofParts (roundWithAccuracy binary64 _ (m * n) (e + d) .exact)).isFinite = true
    rw [roundWithAccuracy_exact _ (Nat.mul_pos hm hn) hplace, ← hvalue]
    refine isFinite_ofParts_nearest (by positivity) ?_
    calc (m : ℚ) * 2 ^ e * (n * 2 ^ d) < 2 ^ (1024 : ℤ) * 2 ^ (-5 : ℤ) :=
          mul_lt_mul hsmall hq (by positivity) (by positivity)
      _ ≤ 2 ^ (1020 : ℤ) := by
        rw [← zpow_add₀ two_ne_zero]
        exact zpow_le_zpow_right₀ one_le_two (by decide)

theorem isFinite_mul_degree {x : Float} (hx : x.isFinite = true) :
    (x * 0.017453292519943295).isFinite = true := by
  have hparts : parts 0.017453292519943295 = .finite .positive 5030569068109113 (-58) (by decide) :=
    rfl
  have hnormal : IsNormal (parts 0.017453292519943295) (5030569068109113 * 2 ^ (-58 : ℤ)) :=
    ⟨_, _, _, hparts, by decide, by norm_num⟩
  exact isFinite_mul hx hnormal (by norm_num)

end BeamEnvelope.Double
