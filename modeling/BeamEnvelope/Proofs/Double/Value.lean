import BeamEnvelope.Proofs.Double.Parts

/-!
# The value of a double

Finite doubles are compared by their values: of two canonical mantissas the one with the larger
exponent counts for more, whatever the digits are. The value is also what the exact ratio of a double
denotes, and what its conversion to an integer cuts off.
-/

namespace BeamEnvelope

def Ratio.value (r : Ratio) : ℚ := r.num / r.den

theorem Ratio.floor_eq (r : Ratio) : r.floor = ⌊r.value⌋₊ :=
  (Nat.floor_div_eq_div r.num r.den).symm

end BeamEnvelope

namespace BeamEnvelope.Double

open Float.Model (Format UnpackedFloat totalExponent)
open Float.Model.UnpackedFloat

/-- The distance of a finite double from zero. -/
def magnitude : UnpackedFloat → ℚ
  | .finite _ m e _ => m * 2 ^ e
  | _ => 0

def value : UnpackedFloat → ℚ
  | .finite .positive m e _ => m * 2 ^ e
  | .finite .negative m e _ => -(m * 2 ^ e)
  | _ => 0

theorem abs_value (u : UnpackedFloat) : |value u| = magnitude u := by
  cases u with
  | finite s m e hm =>
    have hpos : (0 : ℚ) ≤ m * 2 ^ e := by positivity
    cases s with
    | negative => exact (abs_neg _).trans (abs_of_nonneg hpos)
    | positive => exact abs_of_nonneg hpos
  | _ => exact abs_zero

theorem IsCanonical.lt_of_lt {m₁ m₂ : ℕ} {e₁ e₂ : ℤ} (hm₁ : 0 < m₁) (hm₂ : 0 < m₂)
    (h₁ : IsCanonical m₁ e₁) (h₂ : IsCanonical m₂ e₂) (h : e₁ < e₂) :
    (m₁ : ℚ) * 2 ^ e₁ < m₂ * 2 ^ e₂ := by
  rw [isCanonical_iff] at h₁ h₂
  have hpos : (0 : ℚ) < m₂ * 2 ^ e₂ := by positivity
  have hlow := (Int.zpow_le_iff_le_log (b := 2) (by decide) hpos).2 (log_mul_two_zpow hm₂ e₂).ge
  refine lt_of_lt_of_le ((Int.lt_zpow_iff_log_lt (b := 2) (by decide) (by positivity)).2 ?_) hlow
  rw [log_mul_two_zpow hm₁]
  omega

/-- Of two canonical mantissas the one with the larger exponent counts for more. -/
theorem compare_isCanonical {m₁ m₂ : ℕ} {e₁ e₂ : ℤ} (hm₁ : 0 < m₁) (hm₂ : 0 < m₂)
    (h₁ : IsCanonical m₁ e₁) (h₂ : IsCanonical m₂ e₂) :
    (compare e₁ e₂).then (compare m₁ m₂) = compare ((m₁ : ℚ) * 2 ^ e₁) (m₂ * 2 ^ e₂) := by
  rcases lt_trichotomy e₁ e₂ with hlt | rfl | hgt
  · rw [compare_lt_iff_lt.2 hlt, compare_lt_iff_lt.2 (IsCanonical.lt_of_lt hm₁ hm₂ h₁ h₂ hlt)]
    rfl
  · have hpos : (0 : ℚ) < 2 ^ e₁ := by positivity
    rw [compare_eq_iff_eq.2 rfl, Ordering.then]
    rcases lt_trichotomy m₁ m₂ with hlt | rfl | hgt
    · rw [compare_lt_iff_lt.2 hlt, compare_lt_iff_lt.2]
      exact mul_lt_mul_of_pos_right (Nat.cast_lt.2 hlt) hpos
    · rw [compare_eq_iff_eq.2 rfl, compare_eq_iff_eq.2 rfl]
    · rw [compare_gt_iff_gt.2 hgt, compare_gt_iff_gt.2]
      exact mul_lt_mul_of_pos_right (Nat.cast_lt.2 hgt) hpos
  · rw [compare_gt_iff_gt.2 hgt, compare_gt_iff_gt.2 (IsCanonical.lt_of_lt hm₂ hm₁ h₂ h₁ hgt)]
    rfl

theorem compare_neg_neg (a b : ℚ) : compare (-a) (-b) = (compare a b).swap := by
  rcases lt_trichotomy a b with h | rfl | h
  · rw [compare_lt_iff_lt.2 h, compare_gt_iff_gt.2 (neg_lt_neg h)]
    rfl
  · rw [compare_eq_iff_eq.2 rfl, compare_eq_iff_eq.2 rfl]
    rfl
  · rw [compare_gt_iff_gt.2 h, compare_lt_iff_lt.2 (neg_lt_neg h)]
    rfl

/-- Finite doubles are compared by their values. -/
theorem compare_eq {u v : UnpackedFloat} (hu : u.isFinite) (hv : v.isFinite) (fu : Fits u)
    (fv : Fits v) : UnpackedFloat.compare u v = some (compare (value u) (value v)) := by
  cases u with
  | infinity s => simp [UnpackedFloat.isFinite] at hu
  | notANumber => simp [UnpackedFloat.isFinite] at hu
  | zero s =>
    cases v with
    | infinity s => simp [UnpackedFloat.isFinite] at hv
    | notANumber => simp [UnpackedFloat.isFinite] at hv
    | zero s' => rfl
    | finite s' m e hm =>
      have hpos : (0 : ℚ) < m * 2 ^ e := by positivity
      cases s' with
      | negative => exact congrArg some (compare_gt_iff_gt.2 (neg_lt_zero.2 hpos)).symm
      | positive => exact congrArg some (compare_lt_iff_lt.2 hpos).symm
  | finite s m e hm =>
    have hpos : (0 : ℚ) < m * 2 ^ e := by positivity
    cases v with
    | infinity s => simp [UnpackedFloat.isFinite] at hv
    | notANumber => simp [UnpackedFloat.isFinite] at hv
    | zero s' =>
      cases s with
      | negative => exact congrArg some (compare_lt_iff_lt.2 (neg_lt_zero.2 hpos)).symm
      | positive => exact congrArg some (compare_gt_iff_gt.2 hpos).symm
    | finite s' m' e' hm' =>
      have hpos' : (0 : ℚ) < m' * 2 ^ e' := by positivity
      cases s with
      | negative =>
        cases s' with
        | negative =>
          rw [value, value, compare_neg_neg, ← compare_isCanonical hm hm' fu.1 fv.1]
          rfl
        | positive =>
          exact congrArg some (compare_lt_iff_lt.2 ((neg_lt_zero.2 hpos).trans hpos')).symm
      | positive =>
        cases s' with
        | negative =>
          exact congrArg some (compare_gt_iff_gt.2 ((neg_lt_zero.2 hpos').trans hpos)).symm
        | positive =>
          rw [value, value, ← compare_isCanonical hm hm' fu.1 fv.1]
          rfl

theorem compare_parts {x y : Float} (hx : x.isFinite) (hy : y.isFinite) :
    (parts x).compare (parts y) = some (compare (value (parts x)) (value (parts y))) :=
  compare_eq hx hy (fits_parts x) (fits_parts y)

theorem lt_iff_value_lt {x y : Float} (hx : x.isFinite) (hy : y.isFinite) :
    x < y ↔ value (parts x) < value (parts y) := by
  change Float.lt x y = true ↔ _
  rw [Float.lt, decide_eq_true_iff]
  change ((parts x).compare (parts y) == some .lt) = true ↔ _
  rw [compare_parts hx hy, beq_iff_eq, Option.some.injEq, compare_lt_iff_lt]

theorem beq_iff_value_eq {x y : Float} (hx : x.isFinite) (hy : y.isFinite) :
    (x == y) = true ↔ value (parts x) = value (parts y) := by
  change ((parts x).compare (parts y) == some .eq) = true ↔ _
  rw [compare_parts hx hy, beq_iff_eq, Option.some.injEq, compare_eq_iff_eq]

theorem not_lt_negative_infinity {u : UnpackedFloat} (hu : u.isFinite = true) :
    (u.compare (.infinity .negative) == some .lt) = false := by
  cases u with
  | zero s => rfl
  | finite s m e hm => rfl
  | infinity s => exact absurd hu Bool.false_ne_true
  | notANumber => exact absurd hu Bool.false_ne_true

theorem not_positive_infinity_lt {u : UnpackedFloat} (hu : u.isFinite = true) :
    (UnpackedFloat.compare (.infinity .positive) u == some .lt) = false := by
  cases u with
  | zero s => rfl
  | finite s m e hm => rfl
  | infinity s => exact absurd hu Bool.false_ne_true
  | notANumber => exact absurd hu Bool.false_ne_true

/-- Only finite doubles lie between two finite ones. -/
theorem isFinite_of_lt_of_lt {a x b : Float} (ha : a.isFinite) (hb : b.isFinite) (hax : a < x)
    (hxb : x < b) : x.isFinite := by
  change Float.lt a x = true at hax
  change Float.lt x b = true at hxb
  rw [Float.lt, decide_eq_true_iff] at hax hxb
  change ((parts a).compare (parts x) == some .lt) = true at hax
  change ((parts x).compare (parts b) == some .lt) = true at hxb
  change (parts a).isFinite = true at ha
  change (parts b).isFinite = true at hb
  change (parts x).isFinite = true
  generalize parts x = u at *
  cases u with
  | zero s => rfl
  | finite s m e hm => rfl
  | notANumber =>
    generalize parts b = v at *
    cases v <;> exact absurd hxb Bool.false_ne_true
  | infinity s =>
    cases s with
    | negative =>
      rw [not_lt_negative_infinity ha] at hax
      exact absurd hax Bool.false_ne_true
    | positive =>
      rw [not_positive_infinity_lt hb] at hxb
      exact absurd hxb Bool.false_ne_true

theorem magnitude_ofFields {s : Sign} {field fraction : ℕ}
    (h : (ofFields s field fraction).isFinite) :
    magnitude (ofFields s field fraction) =
      (if field = 0 then fraction else 2 ^ 52 + fraction : ℕ) * 2 ^ ((max field 1 : ℕ) - 1075 : ℤ) := by
  rw [ofFields] at h ⊢
  by_cases htop : field = 2047
  · rw [if_pos htop] at h
    split_ifs at h
    · exact absurd h Bool.false_ne_true
    · exact absurd h Bool.false_ne_true
  · by_cases hfield : field = 0
    · by_cases hfraction : fraction = 0
      · simp [hfield, hfraction, magnitude]
      · simp [hfield, hfraction, magnitude]
    · simp [htop, hfield, magnitude, Nat.max_eq_left (Nat.pos_of_ne_zero hfield)]

theorem two_pow_sub_div (a b : ℕ) : (2 : ℚ) ^ (a - b) / 2 ^ (b - a) = 2 ^ ((a : ℤ) - b) := by
  rw [← zpow_natCast, ← zpow_natCast, ← zpow_sub₀ two_ne_zero]
  congr 1
  omega

/-- The exact ratio of a finite double is its distance from zero. -/
theorem value_ofFloat {x : Float} (h : x.isFinite) :
    (Ratio.ofFloat x).value = magnitude (parts x) := by
  change (parts x).isFinite = true at h
  rw [parts_eq_ofFields] at h ⊢
  rw [magnitude_ofFields h, Ratio.value, Ratio.ofFloat]
  simp only [Nat.pow_eq]
  push_cast
  rw [mul_div_assoc, two_pow_sub_div]
  push_cast
  rfl

/-- A double that equals a finite one is finite. -/
theorem isFinite_of_beq {x y : Float} (hy : y.isFinite) (h : x == y) : x.isFinite := by
  change ((parts x).compare (parts y) == some .eq) = true at h
  change (parts y).isFinite = true at hy
  change (parts x).isFinite = true
  generalize parts x = u at *
  generalize parts y = v at *
  cases u with
  | zero s => rfl
  | finite s m e hm => rfl
  | notANumber => cases v <;> exact absurd h Bool.false_ne_true
  | infinity s => cases s <;> cases v <;> first | exact hy | exact absurd h Bool.false_ne_true

theorem beq_self {x : Float} (h : x.isFinite) : (x == x) = true :=
  (beq_iff_value_eq h h).2 rfl

/-- Equal finite doubles of one sign are the same double. -/
theorem eq_of_value_eq {x y : Float} (hx : x.isFinite) (hy : y.isFinite)
    (hsign : sign (parts x) = sign (parts y)) (h : value (parts x) = value (parts y)) : x = y := by
  apply ext_parts
  have fx := fits_parts x
  have fy := fits_parts y
  change (parts x).isFinite = true at hx
  change (parts y).isFinite = true at hy
  generalize parts x = u at *
  generalize parts y = v at *
  have hmagnitude : magnitude u = magnitude v := by rw [← abs_value, h, abs_value]
  cases u with
  | infinity s => exact absurd hx Bool.false_ne_true
  | notANumber => exact absurd hx Bool.false_ne_true
  | zero s =>
    cases v with
    | infinity s' => exact absurd hy Bool.false_ne_true
    | notANumber => exact absurd hy Bool.false_ne_true
    | zero s' => exact congrArg _ hsign
    | finite s' m e hm =>
      have hpos : (0 : ℚ) < m * 2 ^ e := by positivity
      exact absurd hmagnitude hpos.ne
  | finite s m e hm =>
    cases v with
    | infinity s' => exact absurd hy Bool.false_ne_true
    | notANumber => exact absurd hy Bool.false_ne_true
    | zero s' =>
      have hpos : (0 : ℚ) < m * 2 ^ e := by positivity
      exact absurd hmagnitude hpos.ne'
    | finite s' m' e' hm' =>
      have hsame := compare_isCanonical hm hm' fx.1 fy.1
      rw [compare_eq_iff_eq.2 (show (m : ℚ) * 2 ^ e = m' * 2 ^ e' from hmagnitude),
        Ordering.then_eq_eq, compare_eq_iff_eq, compare_eq_iff_eq] at hsame
      obtain ⟨rfl, rfl⟩ := hsame
      obtain rfl : s = s' := hsign
      rfl

theorem floor_value_of_neg {m : ℕ} (hm : 0 < m) (e : ℤ) :
    ⌊value (.finite .negative m e hm)⌋₊ = 0 :=
  Nat.floor_of_nonpos (neg_nonpos.2 (by positivity))

theorem roundToInt_eq (s : Sign) (m : ℕ) (e : ℤ) :
    roundToInt s m e = s.apply ⌊(m : ℚ) * 2 ^ e⌋₊ := by
  have hexact (n : ℕ) : ExtendedMantissa.ofMantissaAndAccuracy n .exact = extended n := by
    rw [extended_natCast]
    rfl
  have hshift : (((m <<< (e - 0).toNat : ℕ) : ℚ) / 2 ^ (0 - (e - ((e - 0).toNat : ℤ))).toNat) =
      m * 2 ^ e := by
    rw [Nat.shiftLeft_eq]
    push_cast
    rw [mul_div_assoc, ← zpow_natCast, ← zpow_natCast, ← zpow_sub₀ two_ne_zero]
    congr 2
    omega
  simp only [roundToInt, decreaseExponent, shiftToExponent, hexact, shiftRight_extended,
    mantissa_extended]
  rw [hshift]

/-- A finite double in the range of the machine integers is cut off towards zero. -/
theorem toNat_toUInt64 {x : Float} (hx : x.isFinite) (h : ⌊value (parts x)⌋₊ < 2 ^ 64) :
    x.toUInt64.toNat = ⌊value (parts x)⌋₊ := by
  have hint : ((parts x).toInt 0 (UInt64.size - 1)).toNat = ⌊value (parts x)⌋₊ := by
    change (parts x).isFinite = true at hx
    cases hp : parts x with
    | infinity s => simp [hp, UnpackedFloat.isFinite] at hx
    | notANumber => simp [hp, UnpackedFloat.isFinite] at hx
    | zero s => exact Nat.floor_zero.symm
    | finite s m e hm =>
      rw [toInt, roundToInt_eq]
      cases s with
      | negative =>
        rw [floor_value_of_neg hm]
        exact Int.toNat_eq_zero.2 (Int.neg_nonpos_of_nonneg (Int.natCast_nonneg _))
      | positive => exact Int.toNat_natCast _
  change (UInt64.ofNatClamp ((parts x).toInt 0 (UInt64.size - 1)).toNat).toNat = _
  rw [hint, UInt64.ofNatClamp_eq_ofNat _ h, UInt64.toNat_ofNat_of_lt' h]

end BeamEnvelope.Double
