import BeamEnvelope.Proofs.Double.Value

/-!
# Sums of doubles that are not negative

A double below a number stays below what the number is rounded to, since it can be held itself. So
a sum of doubles that are not negative is no less than either of them; it may be infinite, but is
always a number.
-/

namespace BeamEnvelope.Double

open Float.Model (Format UnpackedFloat totalExponent)
open Float.Model.UnpackedFloat

variable {m n : ℕ} {e f : ℤ} {q : ℚ} {u v : UnpackedFloat} {x y z : Float}

/-- The place at which a number is cut is one that its floor keeps. -/
theorem le_log2_floor (hq : 0 < q) (h : -1074 < lastPlace q) : 2 ^ 52 ≤ ⌊q / 2 ^ lastPlace q⌋₊ := by
  refine two_pow_le_floor hq ?_
  have hplace := lastPlace_eq q
  push_cast
  omega

/-- What can be held is not lost when a larger number is cut off. -/
theorem IsCanonical.le_floor (hm : 0 < m) (h : IsCanonical m e) (hle : (m : ℚ) * 2 ^ e ≤ q) :
    (m : ℚ) * 2 ^ e ≤ (⌊q / 2 ^ lastPlace q⌋₊ : ℚ) * 2 ^ lastPlace q := by
  have hpos : (0 : ℚ) < m * 2 ^ e := by positivity
  have hq : 0 < q := lt_of_lt_of_le hpos hle
  have hplace : e ≤ lastPlace q := by
    have hlog := Int.log_mono_right (b := 2) hpos hle
    rw [log_mul_two_zpow hm] at hlog
    rw [isCanonical_iff] at h
    rw [Double.lastPlace_eq]
    omega
  rcases hplace.eq_or_lt with heq | hlt
  · rw [heq] at hle ⊢
    refine mul_le_mul_of_nonneg_right ?_ (by positivity)
    exact_mod_cast Nat.le_floor ((le_div_iff₀ (by positivity)).2 hle)
  · -- the mantissa ends in front of the place where the floor has its first digit
    have hlow := isCanonical_iff.1 h
    have hfloor := le_log2_floor hq (by omega)
    calc (m : ℚ) * 2 ^ e ≤ 2 ^ (e + 53) := by
          refine ((Int.lt_zpow_iff_log_lt (b := 2) (by decide) hpos).2 ?_).le
          rw [log_mul_two_zpow hm]
          omega
      _ ≤ 2 ^ (lastPlace q + 52) := zpow_le_zpow_right₀ one_le_two (by omega)
      _ = 2 ^ 52 * 2 ^ lastPlace q := by
          rw [add_comm, zpow_add₀ two_ne_zero]
          rfl
      _ ≤ (⌊q / 2 ^ lastPlace q⌋₊ : ℚ) * 2 ^ lastPlace q :=
          mul_le_mul_of_nonneg_right (by exact_mod_cast hfloor) (by positivity)

theorem isCanonical_floor (hq : 0 < q) (h : ⌊q / 2 ^ lastPlace q⌋₊ ≠ 0) :
    IsCanonical ⌊q / 2 ^ lastPlace q⌋₊ (lastPlace q) := by
  have hlog := log_eq_of_floor_ne_zero hq h
  have hplace := lastPlace_eq q
  rw [isCanonical_iff]
  omega

/-- A mantissa that is rounded up ends at no lower place. -/
theorem lastPlace_le_of_floor_le {r : ℕ} (hq : 0 < q) (hr : 0 < r)
    (h : ⌊q / 2 ^ lastPlace q⌋₊ ≤ r) : lastPlace q ≤ lastPlace (r * 2 ^ lastPlace q) := by
  rw [lastPlace_eq (r * 2 ^ lastPlace q), log_mul_two_zpow hr]
  by_cases hlow : -1074 < lastPlace q
  · have hbits := (Nat.le_log2 hr.ne').2 ((le_log2_floor hq hlow).trans h)
    omega
  · omega

/-- What can be held stays below a larger number when that is rounded. -/
theorem exists_nearest_of_le (s : Sign) (hm : 0 < m) (h : IsCanonical m e)
    (hle : (m : ℚ) * 2 ^ e ≤ q) : ∃ n f hn, nearest s q = .finite s n f hn ∧ IsCanonical n f ∧
      (m : ℚ) * 2 ^ e ≤ n * 2 ^ f := by
  have hpos : (0 : ℚ) < m * 2 ^ e := by positivity
  have hq : 0 < q := lt_of_lt_of_le hpos hle
  have hshift := shiftToTargetExponent_eq hq (le_refl (lastPlace q))
    (ofMantissaAndAccuracy_accuracy (extended (q / 2 ^ lastPlace q)))
  have hfloor := h.le_floor hm hle
  have hrounded := mantissa_le_roundedMantissa (extended (q / 2 ^ lastPlace q))
  rw [mantissa_extended] at hrounded
  have hle' : (m : ℚ) * 2 ^ e ≤
      (extended (q / 2 ^ lastPlace q)).roundedMantissa * 2 ^ lastPlace q :=
    hfloor.trans (mul_le_mul_of_nonneg_right (by exact_mod_cast hrounded) (by positivity))
  generalize hr : (extended (q / 2 ^ lastPlace q)).roundedMantissa = r at *
  have hnonzero {k : ℕ} {g : ℤ} (hk : (m : ℚ) * 2 ^ e ≤ k * 2 ^ g) : k ≠ 0 := by
    rintro rfl
    rw [Nat.cast_zero, zero_mul] at hk
    exact absurd hk (not_le.2 hpos)
  have hr0 := Nat.pos_of_ne_zero (hnonzero hle')
  have hplace := lastPlace_le_of_floor_le hq hr0 hrounded
  have hagain := shiftToTargetExponent_eq (m := r) (a := .exact) (by positivity) hplace (by
    rw [mul_div_cancel_right₀ _ (by positivity), extended_natCast]
    rfl)
  have hfinal := h.le_floor hm hle'
  have hn := hnonzero hfinal
  refine ⟨_, _, Nat.pos_of_ne_zero hn, ?_, isCanonical_floor (by positivity) hn, hfinal⟩
  simp only [nearest, roundWithAccuracy, hshift, hr, hagain]
  simp only [mantissa_extended, hn, dite_false]

def IsNonneg : UnpackedFloat → Prop
  | .infinity .positive | .zero _ | .finite .positive _ _ _ => True
  | _ => False

theorem IsNonneg.cases (h : IsNonneg u) : u = .infinity .positive ∨ (∃ s, u = .zero s) ∨
    ∃ m e hm, u = .finite .positive m e hm := by
  cases u with
  | infinity s =>
    cases s with
    | positive => exact .inl rfl
    | negative => exact absurd h id
  | notANumber => exact absurd h id
  | zero s => exact .inr (.inl ⟨s, rfl⟩)
  | finite s m e hm =>
    cases s with
    | positive => exact .inr (.inr ⟨m, e, hm, rfl⟩)
    | negative => exact absurd h id

def height : UnpackedFloat → WithTop ℚ
  | .infinity _ => ⊤
  | u => value u

theorem le_iff_compare : x ≤ y ↔ ((parts x).compare (parts y)).any (·.isLE) = true := by
  change Float.le x y = true ↔ _
  rw [Float.le, decide_eq_true_iff]
  rfl

theorem isNonneg_iff : IsNonneg (parts x) ↔ 0.0 ≤ x := by
  rw [le_iff_compare, show parts 0.0 = .zero .positive from rfl]
  cases parts x with
  | infinity s => cases s <;> simp [IsNonneg, UnpackedFloat.compare]
  | finite s m e hm => cases s <;> simp [IsNonneg, UnpackedFloat.compare]
  | zero s => simp [IsNonneg, UnpackedFloat.compare]
  | notANumber => simp [IsNonneg, UnpackedFloat.compare]

theorem zero_le_of_not_lt (hx : x.isFinite = true) (h : ¬ x < 0.0) : 0.0 ≤ x := by
  refine isNonneg_iff.1 ?_
  change (parts x).isFinite = true at hx
  change ¬ Float.lt x 0.0 = true at h
  rw [Float.lt, decide_eq_true_iff] at h
  change ¬ ((parts x).compare (.zero .positive) == some .lt) = true at h
  cases hparts : parts x with
  | infinity s => rw [hparts] at hx; cases hx
  | notANumber => rw [hparts] at hx; cases hx
  | zero s => trivial
  | finite s m e hm =>
    cases s with
    | positive => trivial
    | negative =>
      rw [hparts] at h
      exact absurd rfl h

theorem zero_lt_of_ne (hx : 0.0 ≤ x) (hne : (x == 0.0) = false) : 0.0 < x := by
  have hnonneg := isNonneg_iff.2 hx
  change Float.lt 0.0 x = true
  rw [Float.lt, decide_eq_true_iff]
  change ((parts x).compare (.zero .positive) == some .eq) = false at hne
  change (UnpackedFloat.compare (.zero .positive) (parts x) == some .lt) = true
  generalize parts x = u at *
  rcases hnonneg.cases with rfl | ⟨s, rfl⟩ | ⟨m, e, hm, rfl⟩
  · rfl
  · cases hne
  · rfl

theorem IsNonneg.eq_infinity_or_isFinite (h : IsNonneg u) :
    u = .infinity .positive ∨ u.isFinite = true := by
  rcases h.cases with rfl | ⟨s, rfl⟩ | ⟨m, e, hm, rfl⟩
  · exact .inl rfl
  · exact .inr rfl
  · exact .inr rfl

theorem height_eq_value (h : u.isFinite = true) : height u = value u := by
  cases u <;> first | rfl | cases h

/-- Numbers that are not negative are compared by their values. The infinite one is the largest. -/
theorem isLE_iff_height_le (hu : IsNonneg u) (hv : IsNonneg v) (fu : Fits u) (fv : Fits v) :
    (u.compare v).any (·.isLE) = true ↔ height u ≤ height v := by
  rcases hv.eq_infinity_or_isFinite with rfl | hfinite
  · refine iff_of_true ?_ le_top
    rcases hu.cases with rfl | ⟨s, rfl⟩ | ⟨m, e, hm, rfl⟩ <;> rfl
  · rw [height_eq_value hfinite]
    rcases hu.eq_infinity_or_isFinite with rfl | hfinite'
    · refine iff_of_false (fun h => ?_) (not_le.2 (WithTop.coe_lt_top _))
      rcases hv.cases with rfl | ⟨s, rfl⟩ | ⟨m, e, hm, rfl⟩
      · cases hfinite
      · cases h
      · cases h
    · rw [compare_eq hfinite' hfinite fu fv, height_eq_value hfinite', WithTop.coe_le_coe,
        Option.any_some, Ordering.isLE_iff_ne_gt]
      exact compare_le_iff_le

theorem le_iff_height_le (hx : 0.0 ≤ x) (hy : 0.0 ≤ y) :
    x ≤ y ↔ height (parts x) ≤ height (parts y) := by
  rw [le_iff_compare, isLE_iff_height_le (isNonneg_iff.2 hx) (isNonneg_iff.2 hy) (fits_parts x)
    (fits_parts y)]

theorem ofParts_add (x y : Float) :
    x + y = ofParts (UnpackedFloat.add binary64 (parts x) (parts y)) := rfl

/-- Mantissas are added at the place of the lower one, and the sum is rounded once. -/
theorem add_finite (hm : 0 < m) (hn : 0 < n) :
    UnpackedFloat.add binary64 (.finite .positive m e hm) (.finite .positive n f hn) =
      nearest .positive (m * 2 ^ e + n * 2 ^ f) := by
  have hshift (k : ℕ) (g : ℤ) (hg : min e f ≤ g) :
      ((k <<< (g - min e f).toNat : ℕ) : ℚ) * 2 ^ min e f = k * 2 ^ g := by
    have hdiff : ((g - min e f).toNat : ℤ) = g - min e f := by omega
    rw [Nat.shiftLeft_eq, Nat.cast_mul, Nat.cast_pow, Nat.cast_two, mul_assoc, ← zpow_natCast,
      ← zpow_add₀ two_ne_zero, hdiff, sub_add_cancel]
  have hm' : 0 < m <<< (e - min e f).toNat := by
    rw [Nat.shiftLeft_eq]
    positivity
  have hsum : 0 < m <<< (e - min e f).toNat + n <<< (f - min e f).toNat := Nat.add_pos_left hm' _
  have hround := round_eq_nearest .positive hsum (min e f)
  rw [Nat.cast_add, add_mul, hshift m e (min_le_left e f), hshift n f (min_le_right e f)] at hround
  rw [← hround]
  change UnpackedFloat.normalize binary64
    ((m <<< (e - min e f).toNat : ℕ) + (n <<< (f - min e f).toNat : ℕ) : ℤ) (min e f) .positive = _
  rw [← Nat.cast_add, UnpackedFloat.normalize, compare_gt_iff_gt.2 (Int.natCast_pos.2 hsum)]
  rfl

/-- What a number is rounded to is no less than a double below it. -/
theorem le_ofParts_nearest (hm : 0 < m) (h : IsCanonical m e) (hle : (m : ℚ) * 2 ^ e ≤ q) :
    IsNonneg (parts (ofParts (nearest .positive q))) ∧
      ((m * 2 ^ e : ℚ) : WithTop ℚ) ≤ height (parts (ofParts (nearest .positive q))) := by
  obtain ⟨n, f, hn, hnearest, hcanonical, hvalue⟩ := exists_nearest_of_le .positive hm h hle
  rw [hnearest]
  by_cases hf : f ≤ 971
  · have hfits : Fits (.finite .positive n f hn) := ⟨hcanonical, hf⟩
    rw [parts_ofParts hfits]
    exact ⟨trivial, WithTop.coe_le_coe.2 hvalue⟩
  · have hfits : Fits (.infinity .positive) := trivial
    rw [ofParts_of_lt hn (not_le.1 hf), parts_ofParts hfits]
    exact ⟨trivial, le_top⟩

/-- The parts of a sum, and what it is no less than. -/
theorem isNonneg_add (hx : IsNonneg (parts x)) (hy : IsNonneg (parts y)) :
    IsNonneg (parts (x + y)) ∧ height (parts x) ≤ height (parts (x + y)) := by
  have fx := fits_parts x
  have fy := fits_parts y
  rw [ofParts_add]
  generalize parts x = u, parts y = v at *
  have kept {w : UnpackedFloat} (fw : Fits w) (hw : IsNonneg w) (hle : height u ≤ height w) :
      IsNonneg (parts (ofParts w)) ∧ height u ≤ height (parts (ofParts w)) := by
    rw [parts_ofParts fw]
    exact ⟨hw, hle⟩
  have infinite := kept (w := .infinity .positive) trivial trivial le_top
  rcases hx.cases with rfl | ⟨s, rfl⟩ | ⟨m, e, hm, rfl⟩
  · rcases hy.cases with rfl | ⟨t, rfl⟩ | ⟨n, f, hn, rfl⟩ <;> exact infinite
  · rcases hy.cases with rfl | ⟨t, rfl⟩ | ⟨n, f, hn, rfl⟩
    · exact infinite
    · rw [UnpackedFloat.add]
      split <;> exact kept trivial trivial le_rfl
    · have hpos : (0 : ℚ) ≤ n * 2 ^ f := by positivity
      exact kept fy hy (WithTop.coe_le_coe.2 hpos)
  · rcases hy.cases with rfl | ⟨t, rfl⟩ | ⟨n, f, hn, rfl⟩
    · exact infinite
    · exact kept fx hx le_rfl
    · rw [add_finite hm hn]
      exact le_ofParts_nearest hm fx.1 (le_add_of_nonneg_right (by positivity))

theorem zero_le_add (hx : 0.0 ≤ x) (hy : 0.0 ≤ y) : 0.0 ≤ x + y :=
  isNonneg_iff.1 (isNonneg_add (isNonneg_iff.2 hx) (isNonneg_iff.2 hy)).1

/-- A sum is no less than what has been added to. -/
theorem le_add_right (hx : 0.0 ≤ x) (hy : 0.0 ≤ y) : x ≤ x + y :=
  (le_iff_height_le hx (zero_le_add hx hy)).2
    (isNonneg_add (isNonneg_iff.2 hx) (isNonneg_iff.2 hy)).2

theorem le_trans_of_nonneg (hx : 0.0 ≤ x) (hy : 0.0 ≤ y) (hz : 0.0 ≤ z) (hxy : x ≤ y)
    (hyz : y ≤ z) : x ≤ z :=
  (le_iff_height_le hx hz).2
    (((le_iff_height_le hx hy).1 hxy).trans ((le_iff_height_le hy hz).1 hyz))

theorem isNaN_eq_false_of_nonneg (hx : 0.0 ≤ x) : x.isNaN = false := by
  have h := isNonneg_iff.2 hx
  change (parts x).isNaN = false
  rcases h.cases with hparts | ⟨s, hparts⟩ | ⟨m, e, hm, hparts⟩ <;> rw [hparts] <;> rfl

end BeamEnvelope.Double
