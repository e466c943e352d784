import Mathlib

/-!
# The double nearest to a positive rational

Products, quotients and decimals are all rounded by the same routine, each from an integer and an
account of what was cut off below it. The outcome depends on the exact rational alone, not on the
place where the operation stopped computing: the cut-off part is carried as one half bit and one
sticky bit, and shifting the three together loses nothing that a coarser cut would have kept.
-/

namespace BeamEnvelope.Double

open Float.Model Float.Model.UnpackedFloat

abbrev binary64 : Format := Format.binary64

/-- The whole part of a number, its half bit, and whether anything lies below that bit. -/
def extended (y : ℚ) : ExtendedMantissa :=
  ⟨⌊2 * y⌋₊ / 2, ⌊2 * y⌋₊ % 2 != 0, decide ((⌊2 * y⌋₊ : ℚ) ≠ 2 * y)⟩

theorem mantissa_extended (y : ℚ) : (extended y).mantissa = ⌊y⌋₊ := by
  have h := Nat.floor_div_ofNat (2 * y) 2
  rw [mul_div_cancel_left₀ y two_ne_zero] at h
  exact h.symm

theorem extended_natCast (n : ℕ) : extended n = ⟨n, false, false⟩ := by
  have h : ⌊2 * (n : ℚ)⌋₊ = 2 * n := by
    rw [← Nat.cast_ofNat, ← Nat.cast_mul, Nat.floor_natCast]
  simp [extended, h]

theorem shiftRightOne_extended (y : ℚ) :
    (extended y).shiftRightOne = extended (y / 2) := by
  have hhalf : ⌊y⌋₊ = ⌊2 * y⌋₊ / 2 := (mantissa_extended y).symm
  have hdouble : 2 * (y / 2) = y := by ring
  have hsticky : (⌊2 * y⌋₊ % 2 ≠ 0 ∨ (⌊2 * y⌋₊ : ℚ) ≠ 2 * y) ↔ (⌊y⌋₊ : ℚ) ≠ y := by
    rw [← not_iff_not]
    push Not
    constructor
    · rintro ⟨heven, hexact⟩
      obtain ⟨k, hk⟩ := Nat.dvd_of_mod_eq_zero heven
      rw [hk] at hexact hhalf
      have : ⌊y⌋₊ = k := by omega
      push_cast at hexact
      rw [this]
      linarith
    · intro hexact
      have h : ⌊2 * y⌋₊ = 2 * ⌊y⌋₊ := by
        rw [← hexact, ← Nat.cast_ofNat, ← Nat.cast_mul, Nat.floor_natCast, Nat.floor_natCast]
      refine ⟨by omega, ?_⟩
      rw [h]
      push_cast
      rw [hexact]
  simp only [extended, ExtendedMantissa.shiftRightOne, hdouble, hhalf, ExtendedMantissa.mk.injEq,
    true_and]
  rw [Bool.eq_iff_iff]
  simpa [← hhalf] using hsticky

theorem shiftRight_extended (y : ℚ) (k : ℕ) :
    extended y >>> k = extended (y / 2 ^ k) := by
  change k.repeat ExtendedMantissa.shiftRightOne (extended y) = _
  induction k with
  | zero => simp [Nat.repeat]
  | succ k ih =>
    rw [Nat.repeat, ih, shiftRightOne_extended, pow_succ, div_div]

theorem mantissa_ofMantissaAndAccuracy (m : ℕ) (a : Accuracy) :
    (ExtendedMantissa.ofMantissaAndAccuracy m a).mantissa = m := by
  cases a with
  | exact => rfl
  | inexact o => cases o <;> rfl

theorem ofMantissaAndAccuracy_accuracy (em : ExtendedMantissa) :
    ExtendedMantissa.ofMantissaAndAccuracy em.mantissa em.accuracy = em := by
  obtain ⟨m, r, s⟩ := em
  cases r <;> cases s <;> rfl

/-- The exponent of the last place that a double near a number keeps. -/
def lastPlace (q : ℚ) : ℤ := binary64.targetExponent (Int.log 2 q + 1)

theorem targetExponent_eq (t : ℤ) : binary64.targetExponent t = max (t - 53) (-1074) := rfl

theorem lastPlace_eq (q : ℚ) : lastPlace q = max (Int.log 2 q - 52) (-1074) := by
  rw [lastPlace, targetExponent_eq]
  congr 1
  ring

/-- A number cut at a place lies in the same binary order of magnitude as what is left of it. -/
theorem log_eq_of_floor_ne_zero {q : ℚ} {e : ℤ} (hq : 0 < q) (hm : ⌊q / 2 ^ e⌋₊ ≠ 0) :
    Int.log 2 q = (⌊q / 2 ^ e⌋₊.log2 : ℤ) + e := by
  have h2 : (0 : ℚ) < 2 ^ e := by positivity
  have hlow : 2 ^ ⌊q / 2 ^ e⌋₊.log2 ≤ ⌊q / 2 ^ e⌋₊ := Nat.log2_self_le hm
  have hhigh : ⌊q / 2 ^ e⌋₊ < 2 ^ (⌊q / 2 ^ e⌋₊.log2 + 1) := Nat.lt_log2_self
  rw [Nat.le_floor_iff (by positivity), le_div_iff₀ h2] at hlow
  rw [Nat.floor_lt (by positivity), div_lt_iff₀ h2] at hhigh
  generalize ⌊q / 2 ^ e⌋₊.log2 = l at *
  apply le_antisymm
  · rw [← Int.lt_add_one_iff, ← Int.lt_zpow_iff_log_lt (by decide) hq]
    push_cast at hhigh ⊢
    rwa [add_right_comm, zpow_add₀ two_ne_zero, ← Nat.cast_succ, zpow_natCast]
  · rw [← Int.zpow_le_iff_le_log (by decide) hq]
    push_cast at hlow ⊢
    rwa [zpow_add₀ two_ne_zero, zpow_natCast]

/-- An operation that stops at a place no coarser than the last one rounds at the right place. -/
theorem targetExponent_totalExponent {q : ℚ} {e : ℤ} (hq : 0 < q) (he : e ≤ lastPlace q) :
    binary64.targetExponent (totalExponent ⌊q / 2 ^ e⌋₊ e) = lastPlace q := by
  rw [lastPlace_eq] at he ⊢
  rw [targetExponent_eq, totalExponent]
  by_cases hm : ⌊q / 2 ^ e⌋₊ = 0
  · have hlt : q / 2 ^ e < 1 := Nat.floor_eq_zero.1 hm
    rw [div_lt_one (by positivity)] at hlt
    have hlog : Int.log 2 q < e := (Int.lt_zpow_iff_log_lt (by decide) hq).1 (by exact_mod_cast hlt)
    have hzero : (⌊q / 2 ^ e⌋₊).log2 = 0 := by rw [hm]; rfl
    omega
  · rw [log_eq_of_floor_ne_zero hq hm]
    congr 1
    ring

theorem shiftToTargetExponent_eq {q : ℚ} {m : ℕ} {e : ℤ} {a : Accuracy} (hq : 0 < q)
    (he : e ≤ lastPlace q) (h : ExtendedMantissa.ofMantissaAndAccuracy m a = extended (q / 2 ^ e)) :
    shiftToTargetExponent binary64 m e a = (extended (q / 2 ^ lastPlace q), lastPlace q) := by
  have hm : m = ⌊q / 2 ^ e⌋₊ := by
    rw [← mantissa_extended, ← h, mantissa_ofMantissaAndAccuracy]
  have hk : e + ((lastPlace q - e).toNat : ℤ) = lastPlace q := by omega
  rw [shiftToTargetExponent, hm, targetExponent_totalExponent hq he, shiftToExponent, ← hm, h,
    shiftRight_extended, div_div]
  simp only [Prod.mk.injEq, hk, and_true]
  congr 2
  rw [← zpow_natCast, ← zpow_add₀ two_ne_zero, hk]

noncomputable section

/-- The double of a sign nearest to a magnitude, the even one of two that are equally near. -/
def nearest (s : Sign) (q : ℚ) : UnpackedFloat :=
  roundWithAccuracy binary64 s (extended (q / 2 ^ lastPlace q)).mantissa (lastPlace q)
    (extended (q / 2 ^ lastPlace q)).accuracy

theorem roundWithAccuracy_eq_nearest {q : ℚ} {m : ℕ} {e : ℤ} {a : Accuracy} (s : Sign) (hq : 0 < q)
    (he : e ≤ lastPlace q) (h : ExtendedMantissa.ofMantissaAndAccuracy m a = extended (q / 2 ^ e)) :
    roundWithAccuracy binary64 s m e a = nearest s q := by
  rw [nearest, roundWithAccuracy, roundWithAccuracy, shiftToTargetExponent_eq hq he h,
    shiftToTargetExponent_eq hq le_rfl (ofMantissaAndAccuracy_accuracy _)]

theorem log_mul_two_zpow {m : ℕ} (hm : 0 < m) (e : ℤ) :
    Int.log 2 ((m : ℚ) * 2 ^ e) = (m.log2 : ℤ) + e := by
  have h : (m : ℚ) * 2 ^ e / 2 ^ e = m := mul_div_cancel_right₀ _ (by positivity)
  have hfloor : ⌊(m : ℚ) * 2 ^ e / 2 ^ e⌋₊ = m := by rw [h, Nat.floor_natCast]
  have hpos : (0 : ℚ) < m * 2 ^ e := by positivity
  rw [log_eq_of_floor_ne_zero hpos (by rw [hfloor]; exact hm.ne'), hfloor]

theorem roundWithAccuracy_exact (s : Sign) {m : ℕ} (hm : 0 < m) {e : ℤ}
    (he : e ≤ lastPlace (m * 2 ^ e)) :
    roundWithAccuracy binary64 s m e .exact = nearest s (m * 2 ^ e) := by
  apply roundWithAccuracy_eq_nearest s (by positivity) he
  rw [mul_div_cancel_right₀ _ (by positivity), extended_natCast]
  rfl

theorem round_eq_nearest (s : Sign) {m : ℕ} (hm : 0 < m) (e : ℤ) :
    UnpackedFloat.round binary64 s m e = nearest s (m * 2 ^ e) := by
  have htarget : binary64.targetExponent (totalExponent m e) = lastPlace (m * 2 ^ e) := by
    rw [lastPlace, log_mul_two_zpow hm, totalExponent]
    congr 1
    ring
  rw [UnpackedFloat.round, htarget, decreaseExponent]
  dsimp only
  generalize hk : (e - lastPlace (m * 2 ^ e)).toNat = k
  have hvalue : ((m <<< k : ℕ) : ℚ) * 2 ^ (e - (k : ℤ)) = m * 2 ^ e := by
    rw [Nat.shiftLeft_eq]
    push_cast
    rw [mul_assoc, ← zpow_natCast, ← zpow_add₀ two_ne_zero]
    congr 2
    ring
  have hshift : 0 < m <<< k := by
    rw [Nat.shiftLeft_eq]
    positivity
  rw [roundWithAccuracy_exact s hshift (by rw [hvalue]; omega), hvalue]

theorem extended_div (m : ℕ) {d : ℕ} (hd : 0 < d) :
    extended ((m : ℚ) / d) = ⟨m / d, 2 * m / d % 2 != 0, 2 * m % d != 0⟩ := by
  have htwice : 2 * ((m : ℚ) / d) = ((2 * m : ℕ) : ℚ) / d := by
    push_cast
    ring
  have hd' : (d : ℚ) ≠ 0 := by positivity
  have hexact : ((2 * m / d : ℕ) : ℚ) = ((2 * m : ℕ) : ℚ) / d ↔ 2 * m % d = 0 := by
    rw [eq_div_iff hd', ← Nat.dvd_iff_mod_eq_zero, Nat.dvd_iff_div_mul_eq]
    exact_mod_cast Iff.rfl
  have hmantissa := mantissa_extended ((m : ℚ) / d)
  rw [Nat.floor_div_eq_div] at hmantissa
  rw [extended, htwice, Nat.floor_div_eq_div] at hmantissa
  rw [extended, htwice, Nat.floor_div_eq_div, ExtendedMantissa.mk.injEq]
  refine ⟨hmantissa, rfl, ?_⟩
  rw [Bool.eq_iff_iff, decide_eq_true_iff, ne_eq, hexact, bne_iff_ne]

/-- The remainder of a division says all about the place that its quotient leaves out. -/
theorem ofMantissaAndAccuracy_accuracyOfFraction (m : ℕ) {d : ℕ} (hd : 0 < d) :
    ExtendedMantissa.ofMantissaAndAccuracy (m / d) (accuracyOfFraction (m % d) d) =
      extended ((m : ℚ) / d) := by
  have hr : m % d < d := Nat.mod_lt m hd
  have htwice : 2 * m = d * (2 * (m / d)) + 2 * (m % d) := by
    conv_lhs => rw [← Nat.div_add_mod m d]
    ring
  have hdiv : 2 * m / d = 2 * (m / d) + 2 * (m % d) / d := by
    rw [htwice, Nat.mul_add_div hd]
  have hmod : 2 * m % d = 2 * (m % d) % d := by
    rw [htwice, Nat.mul_add_mod]
  rw [extended_div m hd, hdiv, hmod, accuracyOfFraction]
  generalize m % d = r at *
  rcases Nat.lt_trichotomy (2 * r) d with hlt | heq | hgt
  · have hq : 2 * r / d = 0 := Nat.div_eq_of_lt hlt
    rw [Nat.mod_eq_of_lt hlt, hq]
    by_cases hzero : r = 0
    · simp [hzero, ExtendedMantissa.ofMantissaAndAccuracy]
    · simp [hzero, Nat.compare_eq_lt.2 hlt, ExtendedMantissa.ofMantissaAndAccuracy]
  · have hzero : r ≠ 0 := by omega
    have hq : 2 * r / d = 1 := by rw [heq, Nat.div_self hd]
    rw [hq, heq, Nat.mod_self]
    simp [hzero, ExtendedMantissa.ofMantissaAndAccuracy]
  · have hzero : r ≠ 0 := by omega
    have hq : 2 * r / d = 1 := Nat.div_eq_of_lt_le (by omega) (by omega)
    have hrest : 2 * r % d ≠ 0 := by
      rw [Nat.mod_eq_sub_mod hgt.le, Nat.mod_eq_of_lt (by omega)]
      omega
    rw [hq]
    simp [hzero, Nat.compare_eq_gt.2 hgt, ExtendedMantissa.ofMantissaAndAccuracy, hrest]

theorem roundWithAccuracy_divCore (s : Sign) {m₁ m₂ : ℕ} (h₁ : 0 < m₁) (h₂ : 0 < m₂) (e₁ e₂ : ℤ) :
    roundWithAccuracy binary64 s (divCore binary64 m₁ e₁ m₂ e₂).1
        (divCore binary64 m₁ e₁ m₂ e₂).2.1 (divCore binary64 m₁ e₁ m₂ e₂).2.2 =
      nearest s (m₁ * 2 ^ e₁ / (m₂ * 2 ^ e₂)) := by
  have hpos : (0 : ℚ) < m₁ * 2 ^ e₁ / (m₂ * 2 ^ e₂) := by positivity
  -- the quotient has at least as many places as the difference of the two magnitudes promises
  have hlog : totalExponent m₁ e₁ - totalExponent m₂ e₂ ≤
      Int.log 2 ((m₁ : ℚ) * 2 ^ e₁ / (m₂ * 2 ^ e₂)) + 1 := by
    have hlow := Int.zpow_log_le_self (R := ℚ) (b := 2) (r := m₁ * 2 ^ e₁) (by decide)
      (by positivity)
    have hhigh := Int.lt_zpow_succ_log_self (R := ℚ) (b := 2) (by decide) (m₂ * 2 ^ e₂)
    rw [log_mul_two_zpow h₁] at hlow
    rw [log_mul_two_zpow h₂] at hhigh
    rw [← sub_le_iff_le_add, ← Int.zpow_le_iff_le_log (by decide) hpos,
      le_div_iff₀ (by positivity)]
    refine le_trans (mul_le_mul_of_nonneg_left hhigh.le (by positivity)) (le_trans (le_of_eq ?_) hlow)
    rw [← zpow_add₀ (by norm_num)]
    congr 1
    simp only [totalExponent]
    ring
  have hplace : binary64.targetExponent (totalExponent m₁ e₁ - totalExponent m₂ e₂) ≤
      lastPlace (m₁ * 2 ^ e₁ / (m₂ * 2 ^ e₂)) := by
    rw [lastPlace, targetExponent_eq, targetExponent_eq]
    omega
  simp only [divCore]
  generalize hk : min (e₁ - e₂) (binary64.targetExponent _) = e
  apply roundWithAccuracy_eq_nearest s hpos (by omega)
  rw [ofMantissaAndAccuracy_accuracyOfFraction _ h₂]
  congr 1
  have hshift : ((e₁ - e₂ - e).toNat : ℤ) = e₁ - e₂ - e := by omega
  rw [Nat.shiftLeft_eq]
  push_cast
  rw [← zpow_natCast, hshift, zpow_sub₀ two_ne_zero, zpow_sub₀ two_ne_zero]
  field_simp

theorem two_pow_le_floor {q : ℚ} (hq : 0 < q) {e : ℤ} {k : ℕ} (h : e + k ≤ Int.log 2 q) :
    2 ^ k ≤ ⌊q / 2 ^ e⌋₊ := by
  rw [Nat.le_floor_iff (by positivity), le_div_iff₀ (by positivity)]
  have hpow := (Int.zpow_le_iff_le_log (b := 2) (by decide) hq).2 h
  push_cast at hpow ⊢
  rwa [mul_comm, ← zpow_natCast, ← zpow_add₀ two_ne_zero]

theorem mantissa_le_roundedMantissa (em : ExtendedMantissa) : em.mantissa ≤ em.roundedMantissa := by
  obtain ⟨m, r, s⟩ := em
  cases r <;> cases s
  · exact le_rfl
  · exact le_rfl
  · exact Nat.le_add_right m (m % 2)
  · exact Nat.le_succ m

/-- Whether a mantissa and an exponent are those of a double, however large. -/
def IsCanonical (m : ℕ) (e : ℤ) : Prop := binary64.targetExponent (totalExponent m e) = e

theorem isCanonical_iff {m : ℕ} {e : ℤ} :
    IsCanonical m e ↔ max ((m.log2 : ℤ) + e - 52) (-1074) = e := by
  rw [IsCanonical, targetExponent_eq, totalExponent]
  constructor <;> intro h <;> omega

theorem IsCanonical.lastPlace_eq {m : ℕ} {e : ℤ} (hm : 0 < m) (h : IsCanonical m e) :
    lastPlace (m * 2 ^ e) = e := by
  rw [Double.lastPlace_eq, log_mul_two_zpow hm]
  exact isCanonical_iff.1 h

/-- What a double can hold is rounded to itself. -/
theorem nearest_of_isCanonical (s : Sign) {m : ℕ} (hm : 0 < m) {e : ℤ} (h : IsCanonical m e) :
    nearest s (m * 2 ^ e) = .finite s m e hm := by
  have hplace := h.lastPlace_eq hm
  have hexact : extended ((m : ℚ) * 2 ^ e / 2 ^ e) = ⟨m, false, false⟩ := by
    rw [mul_div_cancel_right₀ _ (by positivity), extended_natCast]
  have hshift : shiftToTargetExponent binary64 m e .exact = (⟨m, false, false⟩, e) := by
    rw [shiftToTargetExponent_eq (by positivity) hplace.ge (by rw [hexact]; rfl), hplace, hexact]
  have hrounded : (⟨m, false, false⟩ : ExtendedMantissa).roundedMantissa = m := rfl
  rw [← roundWithAccuracy_exact s hm hplace.ge]
  simp only [roundWithAccuracy, hshift, hrounded, hm.ne', dite_false]

theorem nearest_of_lt {s : Sign} {q : ℚ} (hq : 0 < q) (h : q < 2 ^ (-1075 : ℤ)) :
    nearest s q = .zero s := by
  have hlog : Int.log 2 q < -1075 := (Int.lt_zpow_iff_log_lt (by decide) hq).1 (by exact_mod_cast h)
  have hplace : lastPlace q = -1074 := by
    rw [Double.lastPlace_eq]
    omega
  have hsmall : 2 * (q / 2 ^ (-1074 : ℤ)) < 1 := by
    rw [← mul_div_assoc, div_lt_one (by positivity)]
    calc 2 * q < 2 * 2 ^ (-1075 : ℤ) := by linarith
      _ = 2 ^ (-1074 : ℤ) := by
        rw [← zpow_one_add₀ two_ne_zero]
        norm_num
  have hfloor : ⌊2 * (q / 2 ^ (-1074 : ℤ))⌋₊ = 0 := Nat.floor_eq_zero.2 hsmall
  have hshift := shiftToTargetExponent_eq hq (le_refl (lastPlace q))
    (ofMantissaAndAccuracy_accuracy (extended (q / 2 ^ lastPlace q)))
  rw [nearest, roundWithAccuracy, hshift, hplace]
  have hrounded : (extended (q / 2 ^ (-1074 : ℤ))).roundedMantissa = 0 := by
    simp only [extended, hfloor]
    cases decide (((0 : ℕ) : ℚ) ≠ 2 * (q / 2 ^ (-1074 : ℤ))) <;> rfl
  simp only [hrounded]
  rfl

/-- Beyond the range of doubles rounding still finds a mantissa, whose exponent does not fit. -/
theorem nearest_of_le {s : Sign} {q : ℚ} (h : 2 ^ (1100 : ℤ) ≤ q) :
    ∃ m e hm, nearest s q = .finite s m e hm ∧ 1000 ≤ e := by
  have hq : 0 < q := lt_of_lt_of_le (by positivity) h
  have hlog : 1100 ≤ Int.log 2 q := (Int.zpow_le_iff_le_log (by decide) hq).1 (by exact_mod_cast h)
  have hplace : lastPlace q = Int.log 2 q - 52 := by
    rw [Double.lastPlace_eq]
    omega
  have hshift := shiftToTargetExponent_eq hq (le_refl (lastPlace q))
    (ofMantissaAndAccuracy_accuracy (extended (q / 2 ^ lastPlace q)))
  generalize hr : (extended (q / 2 ^ lastPlace q)).roundedMantissa = r at *
  have hlarge : 2 ^ 52 ≤ r := by
    have hfloor : 2 ^ 52 ≤ ⌊q / 2 ^ lastPlace q⌋₊ := two_pow_le_floor hq (by push_cast; omega)
    rw [← mantissa_extended] at hfloor
    exact hr ▸ le_trans hfloor (mantissa_le_roundedMantissa _)
  have hr0 : 0 < r := lt_of_lt_of_le (by positivity) hlarge
  have hlog2 : 52 ≤ r.log2 := (Nat.le_log2 hr0.ne').2 hlarge
  have hlogr := log_mul_two_zpow hr0 (lastPlace q)
  have hplacer : lastPlace (r * 2 ^ lastPlace q) = Int.log 2 ((r : ℚ) * 2 ^ lastPlace q) - 52 := by
    rw [Double.lastPlace_eq]
    omega
  have hagain := shiftToTargetExponent_eq (q := r * 2 ^ lastPlace q) (m := r) (e := lastPlace q)
    (a := .exact) (by positivity) (by omega) (by
      rw [mul_div_cancel_right₀ _ (by positivity), extended_natCast]
      rfl)
  have hpos : 1 ≤ (extended (r * 2 ^ lastPlace q / 2 ^ lastPlace (r * 2 ^ lastPlace q))).mantissa := by
    rw [mantissa_extended]
    exact two_pow_le_floor (k := 0) (by positivity) (by push_cast; omega)
  refine ⟨_, _, hpos, ?_, (by omega : 1000 ≤ lastPlace (r * 2 ^ lastPlace q))⟩
  simp only [nearest, roundWithAccuracy, hshift, hr, hagain, (Nat.ne_of_gt hpos), dite_false]

end

end BeamEnvelope.Double
