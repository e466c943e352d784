import BeamEnvelope.Decimal.Shortest
import BeamEnvelope.Proofs.Double.Value

/-!
# Decimals are rounded to the nearest double

Small decimals are computed with two doubles, the others with large integers, and exponents beyond
all doubles are cut off first. On each of these ways a decimal becomes the double nearest to its
exact value, so two decimals of one value become one double.
-/

namespace BeamEnvelope

open Float.Model (Format UnpackedFloat totalExponent)
open Float.Model.UnpackedFloat
open Double

namespace Double

theorem ofParts_mul (x y : Float) :
    x * y = ofParts (UnpackedFloat.mul binary64 (parts x) (parts y)) := rfl

theorem ofParts_div (x y : Float) :
    x / y = ofParts (UnpackedFloat.div binary64 (parts x) (parts y)) := rfl

theorem mul_finite {m₁ m₂ : ℕ} (h₁ : 0 < m₁) (h₂ : 0 < m₂) {e₁ e₂ : ℤ}
    (he : e₁ + e₂ ≤ lastPlace (m₁ * 2 ^ e₁ * (m₂ * 2 ^ e₂))) :
    UnpackedFloat.mul binary64 (.finite .positive m₁ e₁ h₁) (.finite .positive m₂ e₂ h₂) =
      nearest .positive (m₁ * 2 ^ e₁ * (m₂ * 2 ^ e₂)) := by
  have hvalue : (m₁ : ℚ) * 2 ^ e₁ * (m₂ * 2 ^ e₂) = ((m₁ * m₂ : ℕ) : ℚ) * 2 ^ (e₁ + e₂) := by
    rw [zpow_add₀ two_ne_zero]
    push_cast
    ring
  rw [hvalue] at he ⊢
  exact roundWithAccuracy_exact _ (Nat.mul_pos h₁ h₂) he

theorem div_finite {m₁ m₂ : ℕ} (h₁ : 0 < m₁) (h₂ : 0 < m₂) (e₁ e₂ : ℤ) :
    UnpackedFloat.div binary64 (.finite .positive m₁ e₁ h₁) (.finite .positive m₂ e₂ h₂) =
      nearest .positive (m₁ * 2 ^ e₁ / (m₂ * 2 ^ e₂)) :=
  roundWithAccuracy_divCore .positive h₁ h₂ e₁ e₂

/-- Normal parts: a positive double with a full mantissa. -/
def IsNormal (u : UnpackedFloat) (q : ℚ) : Prop :=
  ∃ m e hm, u = .finite .positive m e hm ∧ 2 ^ 52 ≤ m ∧ (m : ℚ) * 2 ^ e = q

theorem IsNormal.mul {x y : Float} {p q : ℚ} (hx : IsNormal (parts x) p) (hy : IsNormal (parts y) q) :
    x * y = ofParts (nearest .positive (p * q)) := by
  obtain ⟨m₁, e₁, h₁, hx, hlarge₁, rfl⟩ := hx
  obtain ⟨m₂, e₂, h₂, hy, hlarge₂, rfl⟩ := hy
  rw [ofParts_mul, hx, hy, mul_finite h₁ h₂]
  have hlog : Int.log 2 ((m₁ : ℚ) * 2 ^ e₁ * (m₂ * 2 ^ e₂)) = ((m₁ * m₂).log2 : ℤ) + (e₁ + e₂) := by
    rw [← log_mul_two_zpow (Nat.mul_pos h₁ h₂), zpow_add₀ two_ne_zero]
    push_cast
    congr 1
    ring
  have hlog2 : 104 ≤ (m₁ * m₂).log2 := by
    rw [Nat.le_log2 (Nat.mul_pos h₁ h₂).ne', show 2 ^ 104 = 2 ^ 52 * 2 ^ 52 from rfl]
    exact Nat.mul_le_mul hlarge₁ hlarge₂
  rw [lastPlace_eq, hlog]
  omega

theorem IsNormal.div {x y : Float} {p q : ℚ} (hx : IsNormal (parts x) p) (hy : IsNormal (parts y) q) :
    x / y = ofParts (nearest .positive (p / q)) := by
  obtain ⟨m₁, e₁, h₁, hx, -, rfl⟩ := hx
  obtain ⟨m₂, e₂, h₂, hy, -, rfl⟩ := hy
  rw [ofParts_div, hx, hy, div_finite h₁ h₂]

theorem mul_two_pow_sub_log2 {m : ℕ} (hm : 0 < m) (h : m < 2 ^ 53) (e : ℤ) :
    2 ^ 52 ≤ m * 2 ^ (52 - m.log2) ∧
      ((m * 2 ^ (52 - m.log2) : ℕ) : ℚ) * 2 ^ (e + m.log2 - 52) = m * 2 ^ e := by
  have hlog : m.log2 < 53 := (Nat.log2_lt hm.ne').2 h
  constructor
  · calc 2 ^ 52 = 2 ^ m.log2 * 2 ^ (52 - m.log2) := by
          rw [← pow_add]
          congr 1
          omega
      _ ≤ m * 2 ^ (52 - m.log2) := Nat.mul_le_mul_right _ (Nat.log2_self_le hm.ne')
  · push_cast
    rw [mul_assoc, ← zpow_natCast, ← zpow_add₀ two_ne_zero]
    congr 2
    omega

theorem isCanonical_full {m : ℕ} (hm : 0 < m) (h : m < 2 ^ 53) {e : ℤ} (he : -1022 ≤ e) :
    IsCanonical (m * 2 ^ (52 - m.log2)) (e + m.log2 - 52) := by
  have hpos : 0 < m * 2 ^ (52 - m.log2) := by positivity
  have hfull := log_mul_two_zpow hpos (e + m.log2 - 52)
  rw [(mul_two_pow_sub_log2 hm h e).2, log_mul_two_zpow hm] at hfull
  exact isCanonical_iff.2 (by omega)

theorem isNormal_full {m : ℕ} (hm : 0 < m) (h : m < 2 ^ 53) {e : ℤ} (he : -1022 ≤ e)
    (he' : e ≤ 970) :
    IsNormal (parts (ofParts (.finite .positive (m * 2 ^ (52 - m.log2)) (e + m.log2 - 52)
      (by positivity)))) (m * 2 ^ e) := by
  have hlog : m.log2 < 53 := (Nat.log2_lt hm.ne').2 h
  obtain ⟨hlarge, hvalue⟩ := mul_two_pow_sub_log2 hm h e
  refine ⟨_, _, _, parts_ofParts ⟨isCanonical_full hm h he, by omega⟩, hlarge, hvalue⟩

theorem isNormal_toFloat {m : ℕ} (hm : 0 < m) (h : m < 2 ^ 53) :
    IsNormal (parts m.toUInt64.toFloat) m := by
  have hnat : (m.toUInt64).toNat = m := UInt64.toNat_ofNat_of_lt' (lt_trans h (by decide))
  have hround : m.toUInt64.toFloat = ofParts (nearest .positive (m * 2 ^ (0 : ℤ))) := by
    rw [← round_eq_nearest _ hm]
    change ofParts (normalize binary64 ((m.toUInt64).toNat : ℤ) 0 .positive) = _
    rw [hnat, UnpackedFloat.normalize, compare_gt_iff_gt.2 (Int.natCast_pos.2 hm)]
    rfl
  have hnormal := isNormal_full hm h (e := 0) (by decide) (by decide)
  rw [← nearest_of_isCanonical .positive (by positivity) (isCanonical_full hm h (by decide)),
    (mul_two_pow_sub_log2 hm h 0).2, ← hround] at hnormal
  simpa using hnormal

/-- The tabulated powers of ten are exact. -/
theorem powersOfTen_eq : ∀ k : Fin Float.exactlyRepresentablePowersOfTen.size,
    Float.exactlyRepresentablePowersOfTen[k] = ofParts (.finite .positive
      (5 ^ k.val * 2 ^ (52 - (5 ^ k.val).log2)) (k.val + (5 ^ k.val).log2 - 52) (by positivity)) := by
  decide +kernel

theorem isNormal_powerOfTen {k : ℕ} (h : k < Float.exactlyRepresentablePowersOfTen.size) :
    IsNormal (parts Float.exactlyRepresentablePowersOfTen[k]) (10 ^ k) := by
  have hk : k < 23 := h
  have hsmall : 5 ^ k < 2 ^ 53 := lt_of_le_of_lt
    (Nat.pow_le_pow_right (by decide) (Nat.le_of_lt_succ hk)) (by decide : 5 ^ 22 < 2 ^ 53)
  have hnormal := isNormal_full (e := k) (Nat.pow_pos (by decide)) hsmall (by omega) (by omega)
  rw [← powersOfTen_eq ⟨k, h⟩] at hnormal
  have hten : (10 : ℚ) ^ k = ((5 ^ k : ℕ) : ℚ) * 2 ^ (k : ℤ) := by
    push_cast
    rw [zpow_natCast, ← mul_pow]
    norm_num
  rwa [hten]

theorem sign_nearest (s : Sign) (q : ℚ) : sign (nearest s q) = s := by
  simp only [nearest, roundWithAccuracy]
  split_ifs <;> rfl

theorem nearest_zero (s : Sign) : nearest s 0 = .zero s := by
  have hzero (t : ℤ) : extended (0 / 2 ^ t) = ⟨0, false, false⟩ := by
    rw [zero_div]
    exact_mod_cast extended_natCast 0
  have hlog : Int.log 2 (0 : ℚ) = 0 := Int.log_zero_right 2
  have hplace : lastPlace 0 = -52 := by
    rw [lastPlace_eq, hlog]
    rfl
  rw [nearest, hzero, hplace]
  rfl

end Double

namespace Decimal

def value (d : Decimal) : ℚ := d.coefficient * 10 ^ d.exponent

/-- Large exponents are cut off where the nearest double is infinite anyway. -/
theorem ofParts_nearest_of_lt {m : ℕ} (hm : 0 < m) {e : ℤ} (h : 2048 < e) :
    ofParts (nearest .positive (m * 10 ^ e)) = ofParts (.infinity .positive) := by
  have hlarge : (2 : ℚ) ^ (1100 : ℤ) ≤ m * 10 ^ e := by
    calc (2 : ℚ) ^ (1100 : ℤ) ≤ 2 ^ e := zpow_le_zpow_right₀ one_le_two (by omega)
      _ ≤ 10 ^ e := zpow_le_zpow_left₀ (by omega) (by norm_num) (by norm_num)
      _ ≤ m * 10 ^ e := le_mul_of_one_le_left (by positivity) (by exact_mod_cast hm)
  obtain ⟨m', e', hm', hnearest, hover⟩ := nearest_of_le hlarge
  rw [hnearest, ofParts_of_lt hm' (by omega)]

/-- Small exponents are cut off where the nearest double is zero anyway. -/
theorem nearest_of_lt_neg {m : ℕ} (hm : 0 < m) {e : ℤ} (h : e < -(2048 + (m.log2 : ℤ))) :
    nearest .positive (m * 10 ^ e) = .zero .positive := by
  apply nearest_of_lt (by positivity)
  have hten : (10 : ℚ) ^ e ≤ 2 ^ e := by
    have hinv : (2 : ℚ) ^ (-e) ≤ 10 ^ (-e) :=
      zpow_le_zpow_left₀ (by omega) (by norm_num) (by norm_num)
    rw [zpow_neg, zpow_neg] at hinv
    exact (inv_le_inv₀ (by positivity) (by positivity)).1 hinv
  calc (m : ℚ) * 10 ^ e ≤ m * 2 ^ e := mul_le_mul_of_nonneg_left hten (by positivity)
    _ < 2 ^ ((m.log2 : ℤ) + e + 1) := by
      rw [← log_mul_two_zpow hm e]
      exact_mod_cast Int.lt_zpow_succ_log_self (R := ℚ) (b := 2) (by decide) (m * 2 ^ e)
    _ ≤ 2 ^ (-1075 : ℤ) := zpow_le_zpow_right₀ one_le_two (by omega)

/-- Powers of ten as integers of any size lead to the same double. -/
theorem ofParts_ofScientific (m : ℕ) (e : ℤ) :
    ofParts (UnpackedFloat.ofScientific binary64 m e) = ofParts (nearest .positive (m * 10 ^ e)) := by
  rw [UnpackedFloat.ofScientific]
  split_ifs with hzero hlarge hsmall hsign
  · rw [hzero, Nat.cast_zero, zero_mul, nearest_zero]
  · exact (ofParts_nearest_of_lt (Nat.pos_of_ne_zero hzero) hlarge).symm
  · rw [nearest_of_lt_neg (Nat.pos_of_ne_zero hzero) hsmall]
  · have hm := Nat.pos_of_ne_zero hzero
    have hvalue : ((m <<< 53 : ℕ) : ℚ) * 2 ^ (-53 : ℤ) * ((10 ^ e.toNat : ℕ) * 2 ^ (0 : ℤ)) =
        m * 10 ^ e := by
      rw [Nat.shiftLeft_eq]
      push_cast
      have hcancel : (9007199254740992 : ℚ) * 2 ^ (-53 : ℤ) = 1 := by norm_num
      rw [mul_one, ← zpow_natCast (10 : ℚ), Int.toNat_of_nonneg hsign, mul_assoc (m : ℚ), hcancel,
        mul_one]
    have hlog : 0 ≤ Int.log 2 ((m : ℚ) * 10 ^ e) := by
      rw [← Int.zpow_le_iff_le_log (by decide) (by positivity), zpow_zero]
      exact one_le_mul_of_one_le_of_one_le (by exact_mod_cast hm)
        (one_le_zpow₀ (by norm_num) hsign)
    refine congrArg ofParts ?_
    rw [← hvalue]
    refine mul_finite _ _ ?_
    change (-53 : ℤ) + 0 ≤
      lastPlace ((m <<< 53 : ℕ) * 2 ^ (-53 : ℤ) * ((10 ^ e.toNat : ℕ) * 2 ^ (0 : ℤ)))
    rw [hvalue, lastPlace_eq]
    omega
  · have hvalue : (m : ℚ) * 2 ^ (0 : ℤ) / ((10 ^ (-e).toNat : ℕ) * 2 ^ (0 : ℤ)) = m * 10 ^ e := by
      have hnat : ((-e).toNat : ℤ) = -e := by omega
      push_cast
      rw [mul_one, mul_one, ← zpow_natCast (10 : ℚ), hnat, zpow_neg, div_inv_eq_mul]
    refine congrArg ofParts ?_
    rw [← hvalue]
    exact div_finite _ _ 0 0

/-- Reading a decimal gives the double nearest to its exact value. -/
theorem toFloat_eq (d : Decimal) : d.toFloat = ofParts (nearest .positive d.value) := by
  obtain ⟨m, e⟩ := d
  rw [toFloat, Float.ofScientific, value]
  dsimp only
  by_cases hfast : m < 2 ^ 53 ∧ e.natAbs ≤ 22
  · rw [dif_pos hfast]
    have hindex : e.natAbs < Float.exactlyRepresentablePowersOfTen.size :=
      Nat.lt_succ_of_le hfast.2
    -- both factors are doubles without rounding, so one operation rounds once
    have hten := isNormal_powerOfTen hindex
    by_cases hm : m = 0
    · obtain ⟨m', e', hm', hten, -⟩ := hten
      have hzero : parts (0 : ℕ).toUInt64.toFloat = .zero .positive := rfl
      subst hm
      rw [Nat.cast_zero, zero_mul, nearest_zero, ofParts_div, ofParts_mul, hten, hzero]
      split_ifs <;> rfl
    · have hnormal := isNormal_toFloat (Nat.pos_of_ne_zero hm) hfast.1
      rw [hnormal.div hten, hnormal.mul hten]
      split_ifs with hneg
      · have he : e = -(e.natAbs : ℤ) := by
          have := of_decide_eq_true hneg
          omega
        conv_rhs => rw [he, zpow_neg, zpow_natCast, ← div_eq_mul_inv]
      · have he : e = (e.natAbs : ℤ) := by
          have := of_decide_eq_false (Bool.eq_false_iff.2 hneg)
          omega
        conv_rhs => rw [he, zpow_natCast]
  · rw [dif_neg hfast]
    -- sign and absolute value make up the exponent again
    have he : (if decide (e < 0) then Int.negOfNat e.natAbs else Int.ofNat e.natAbs) = e := by
      split_ifs with hneg
      · have := of_decide_eq_true hneg
        rw [Int.negOfNat_eq, Int.ofNat_eq_natCast]
        omega
      · have := of_decide_eq_false (Bool.eq_false_iff.2 hneg)
        rw [Int.ofNat_eq_natCast]
        omega
    rw [he]
    exact ofParts_ofScientific m e

theorem toFloat_eq_of_value_eq {c d : Decimal} (h : c.value = d.value) : c.toFloat = d.toFloat := by
  rw [toFloat_eq, toFloat_eq, h]

theorem value_trim (d : Decimal) : d.trim.value = d.value := by
  fun_induction trim d with
  | case1 d h => simp [value, h]
  | case2 d h hten ih =>
    obtain ⟨c, hc⟩ := Nat.dvd_of_mod_eq_zero hten
    rw [ih, value, value, hc, Nat.mul_div_cancel_left _ (by decide), zpow_add_one₀ (by norm_num)]
    push_cast
    ring
  | case3 d h hten => rfl

/-- A decimal of the value of a finite double becomes that double again. -/
theorem toFloat_of_value_eq {d : Decimal} {x : Float} (hx : x.isFinite)
    (h : d.value = magnitude (parts x)) : d.toFloat = x.abs := by
  rw [toFloat_eq, h, ← ofParts_parts x.abs, parts_abs]
  have hfits := fits_parts x
  change (parts x).isFinite = true at hx
  generalize parts x = u at *
  cases u with
  | infinity s => exact absurd hx Bool.false_ne_true
  | notANumber => exact absurd hx Bool.false_ne_true
  | zero s => exact congrArg ofParts (nearest_zero .positive)
  | finite s m e hm => exact congrArg ofParts (nearest_of_isCanonical .positive hm hfits.1)

theorem value_expansion {x : Float} (hx : x.isFinite) :
    (expansion (Ratio.ofFloat x)).value = magnitude (parts x) := by
  rw [← value_ofFloat hx]
  have hden : ∃ k, (Ratio.ofFloat x).den = 2 ^ k := ⟨_, rfl⟩
  obtain ⟨k, hk⟩ := hden
  have hten : (10 : ℚ) ^ k = 5 ^ k * 2 ^ k := by
    rw [← mul_pow]
    norm_num
  rw [expansion, value, Ratio.value, hk, Nat.log2_two_pow, Nat.pow_eq]
  push_cast
  have hfive : (5 : ℚ) ^ k * (5 ^ k)⁻¹ = 1 := mul_inv_cancel₀ (by positivity)
  rw [zpow_neg, zpow_natCast, hten, mul_inv, mul_assoc, ← mul_assoc (5 ^ k), hfive, one_mul,
    div_eq_mul_inv]

theorem eq_abs_of_beq {d : Decimal} {x : Float} (hx : x.isFinite) (h : d.toFloat == x.abs) :
    d.toFloat = x.abs := by
  have habs : x.abs.isFinite = true := by rw [isFinite_abs, hx]
  have hd := isFinite_of_beq habs h
  refine eq_of_value_eq hd habs ?_ ((beq_iff_value_eq hd habs).1 h)
  rw [toFloat_eq, sign_parts_ofParts (sign_nearest .positive d.value), parts_abs]
  cases parts x <;> rfl

/-- The shortest decimal of a finite double becomes its absolute value. -/
theorem toFloat_shortest {x : Float} (hx : x.isFinite) : (shortest x).toFloat = x.abs := by
  rw [shortest, toFloat_eq_of_value_eq (value_trim _)]
  generalize hfound : List.findSome? _ _ = found
  cases found with
  | none => exact toFloat_of_value_eq hx (value_expansion hx)
  | some d =>
    obtain ⟨extra, -, hextra⟩ := List.exists_of_findSome?_eq_some hfound
    have hbeq : (d.toFloat == x.abs) = true := by
      simpa using List.find?_some hextra
    exact eq_abs_of_beq hx hbeq

end Decimal

end BeamEnvelope
