import BeamEnvelope.Proofs.Optics.Conservation
import Mathlib.Analysis.SpecialFunctions.Trigonometric.DerivHyp

/-!
# Maps of adjacent sections

Over the real numbers the maps of drifts, quadrupoles, solenoids and the bodies of bends are
one-parameter groups in their length: two sections of one strength act, one behind the other, as
one section of both lengths. What a bend makes of an energy offset follows along, since the offset
behind the first section is one that the second section carries on.
-/

namespace BeamEnvelope

open Scalar

namespace Plane

/-- The maps of a plane in a row, the right one first. -/
instance : Mul (Plane ℝ) where
  mul b a := ⟨b.xx * a.xx + b.xp * a.px, b.xx * a.xp + b.xp * a.pp, b.px * a.xx + b.pp * a.px,
    b.px * a.xp + b.pp * a.pp⟩

theorem mul_eq (b a : Plane ℝ) : b * a = ⟨b.xx * a.xx + b.xp * a.px, b.xx * a.xp + b.xp * a.pp,
    b.px * a.xx + b.pp * a.px, b.px * a.xp + b.pp * a.pp⟩ := rfl

/-- The sums of angles, whatever the sign of the strength. -/
theorem focusing_add (k l₁ l₂ : ℝ) : focusing k (l₁ + l₂) = focusing k l₂ * focusing k l₁ := by
  rw [mul_eq]
  rcases lt_trichotomy k 0 with hk | rfl | hk
  · have hw : Real.sqrt (-k) ≠ 0 := (Real.sqrt_pos.2 (neg_pos.2 hk)).ne'
    have hpos : isPositive k = false := Bool.eq_false_of_not_eq_true
      ((isPositive_real k).not.2 (not_lt.2 hk.le))
    simp only [focusing, hpos, (isNegative_real k).2 hk, if_true, Bool.false_eq_true, if_false,
      sqrt_real, sinh_real, cosh_real, mul_add, Real.cosh_add, Real.sinh_add, mk.injEq]
    refine ⟨?_, ?_, ?_, ?_⟩ <;> field_simp <;> ring
  · simp [focusing, add_comm]
  · have hw : Real.sqrt k ≠ 0 := (Real.sqrt_pos.2 hk).ne'
    simp only [focusing, (isPositive_real k).2 hk, if_true, sqrt_real, sin_real, cos_real, mul_add,
      Real.cos_add, Real.sin_add, mk.injEq]
    refine ⟨?_, ?_, ?_, ?_⟩ <;> field_simp <;> ring

end Plane

namespace PhaseMatrix

theorem dispersive_mul (a b a' b' : Plane ℝ) (dx dp sx sp slip dx' dp' sx' sp' slip' : ℝ) :
    dispersive a' b' dx' dp' sx' sp' slip' * dispersive a b dx dp sx sp slip =
      dispersive (a' * a) (b' * b) (a'.xx * dx + a'.xp * dp + dx') (a'.px * dx + a'.pp * dp + dp')
        (sx' * a.xx + sp' * a.px + sx) (sx' * a.xp + sp' * a.pp + sp)
        (sx' * dx + sp' * dp + slip + slip') := by
  refine ext_apply fun i j => ?_
  rw [mul_apply, sumAxes, Plane.mul_eq, Plane.mul_eq]
  fin_cases i <;> fin_cases j <;> simp [dispersive]

theorem uncoupled_mul (a b a' b' : Plane ℝ) (slip slip' : ℝ) :
    uncoupled a' b' slip' * uncoupled a b slip = uncoupled (a' * a) (b' * b) (slip + slip') := by
  simp [uncoupled_eq_dispersive, dispersive_mul]

variable (l₁ l₂ k : ℝ) (kin : Option (Kinematics ℝ))

theorem slip_add (kin : Kinematics ℝ) : kin.slip (l₁ + l₂) = kin.slip l₁ + kin.slip l₂ := by
  rw [Kinematics.slip, Kinematics.slip, Kinematics.slip, mul_add, add_div]

theorem slipOf_add : slipOf kin (l₁ + l₂) = slipOf kin l₁ + slipOf kin l₂ := by
  cases kin with
  | none => simp [slipOf]
  | some kin => simp only [slipOf, slip_add, zero_real, zero_add]

theorem drift_add : drift (l₁ + l₂) kin = drift l₂ kin * drift l₁ kin := by
  rw [drift, drift, drift, uncoupled_mul, Plane.focusing_add, slipOf_add]

theorem quadrupole_add :
    quadrupole (l₁ + l₂) k kin = quadrupole l₂ k kin * quadrupole l₁ k kin := by
  rw [quadrupole, quadrupole, quadrupole, uncoupled_mul, Plane.focusing_add, Plane.focusing_add,
    slipOf_add]

/-- The rotation of the planes and the oscillation in each of them go on independently. -/
theorem solenoid_add : solenoid (l₁ + l₂) k kin = solenoid l₂ k kin * solenoid l₁ k kin := by
  by_cases hk : k = 0
  · have hzero := (isZero_real k).2 hk
    rw [solenoid, solenoid, solenoid, if_pos hzero, if_pos hzero, if_pos hzero, drift_add]
  · have hzero := mt (isZero_real k).1 hk
    rw [solenoid, solenoid, solenoid, if_neg hzero, if_neg hzero, if_neg hzero, slipOf_add]
    refine ext_apply fun i j => ?_
    rw [mul_apply, sumAxes]
    simp only [sin_real, cos_real, mul_add, Real.sin_add, Real.cos_add]
    fin_cases i <;> fin_cases j <;> simp <;> field_simp <;> ring

/-- The path that a momentum offset makes longer in a bend, per momentum offset and squared
curvature. -/
noncomputable def pathIntegral (k length : ℝ) : ℝ :=
  if isZero k then length * length * length / 6.0 else (length - (Plane.focusing k length).xp) / k

/-- The offset of a particle behind a section is carried on by the next one. -/
theorem dispersion_add : dispersion k (l₁ + l₂) =
    (Plane.focusing k l₂).xx * dispersion k l₁ +
      (Plane.focusing k l₂).xp * (Plane.focusing k l₁).xp + dispersion k l₂ := by
  by_cases hk : k = 0
  · subst hk
    simp [dispersion, Plane.focusing]
    ring
  · obtain ⟨-, hpx, -⟩ := Plane.focusing_spec k l₁
    have hzero := mt (isZero_real k).1 hk
    rw [dispersion, dispersion, dispersion, if_neg hzero, if_neg hzero, if_neg hzero,
      Plane.focusing_add, Plane.mul_eq, hpx, one_real]
    field_simp
    ring

theorem pathIntegral_add : pathIntegral k (l₁ + l₂) = pathIntegral k l₁ + pathIntegral k l₂ +
    ((Plane.focusing k l₂).xp * dispersion k l₁ + dispersion k l₂ * (Plane.focusing k l₁).xp) := by
  by_cases hk : k = 0
  · subst hk
    have hsix : (6.0 : ℝ) = 6 := by norm_num
    simp [pathIntegral, dispersion, Plane.focusing, hsix]
    ring
  · obtain ⟨hpp, -, -⟩ := Plane.focusing_spec k l₁
    have hzero := mt (isZero_real k).1 hk
    simp only [pathIntegral, dispersion, if_neg hzero]
    rw [Plane.focusing_add, Plane.mul_eq, hpp, one_real]
    field_simp
    ring

theorem disperse_eq (kin : Kinematics ℝ) (length h k : ℝ) (b : Plane ℝ) :
    disperse (uncoupled (.focusing k length) b 0.0) kin length h k (.focusing k length) =
      dispersive (.focusing k length) b (h * dispersion k length * kin.momentumPerEnergy)
        (h * (Plane.focusing k length).xp * kin.momentumPerEnergy)
        (kin.phasePerLength * h * (Plane.focusing k length).xp)
        (kin.phasePerLength * h * dispersion k length)
        (kin.slip length +
          kin.phasePerLength * h * h * pathIntegral k length * kin.momentumPerEnergy) :=
  set_uncoupled ..

/-- The body of a bend, without its pole faces. -/
noncomputable def bendBody (length h k : ℝ) (b : Plane ℝ) : Option (Kinematics ℝ) → PhaseMatrix ℝ
  | some kin =>
    disperse (uncoupled (.focusing k length) b 0.0) kin length h k (.focusing k length)
  | none => uncoupled (.focusing k length) b 0.0

theorem bendBody_add (h k' : ℝ) :
    bendBody (l₁ + l₂) h k (.focusing k' (l₁ + l₂)) kin =
      bendBody l₂ h k (.focusing k' l₂) kin * bendBody l₁ h k (.focusing k' l₁) kin := by
  rw [Plane.focusing_add k']
  cases kin with
  | none =>
    rw [bendBody, bendBody, bendBody, Plane.focusing_add, uncoupled_mul]
    simp
  | some kin =>
    obtain ⟨hpp, hpx, -⟩ := Plane.focusing_spec k l₁
    obtain ⟨hpp', hpx', -⟩ := Plane.focusing_spec k l₂
    obtain ⟨hdx, -⟩ := dispersion_spec k l₁
    obtain ⟨hdx', -⟩ := dispersion_spec k l₂
    rw [bendBody, bendBody, bendBody, disperse_eq, disperse_eq, disperse_eq, dispersive_mul,
      Plane.focusing_add k, dispersion_add, pathIntegral_add, slip_add]
    congr 1
    · ring
    · rw [Plane.mul_eq, hpp, hpx', hpp']
      linear_combination (h * kin.momentumPerEnergy * (Plane.focusing k l₂).xp) * hdx
    · rw [Plane.mul_eq, hpp, hpx]
      linear_combination (kin.phasePerLength * h * (Plane.focusing k l₁).xp) * hdx'
    · rw [hpp]
      linear_combination (kin.phasePerLength * h * dispersion k l₁) * hdx' -
        (kin.phasePerLength * h * dispersion k l₂) * hdx
    · ring

/-- A pole face at a right angle does nothing. -/
theorem edge_zero (curvature : ℝ) : edge curvature 0 = identity := by
  have htan : tan (0 : ℝ) = 0 := Real.tan_zero
  rw [edge_eq_uncoupled, identity_eq_uncoupled, htan]
  simp

theorem toMatrix_identity : (identity : PhaseMatrix ℝ).toMatrix = 1 := by
  ext i j
  change (identity : PhaseMatrix ℝ) i j = _
  rw [identity_apply, one_real, zero_real, Matrix.one_apply]

theorem identity_mul (r : PhaseMatrix ℝ) : identity * r = r := by
  apply toMatrix_injective
  rw [toMatrix_mul, toMatrix_identity, one_mul]

theorem mul_identity (r : PhaseMatrix ℝ) : r * identity = r := by
  apply toMatrix_injective
  rw [toMatrix_mul, toMatrix_identity, mul_one]

theorem bend_eq (length angle edgeIn edgeOut gradient : ℝ) (hlength : length ≠ 0) :
    bend length angle edgeIn edgeOut gradient kin =
      edge (angle / length) edgeOut *
        bendBody length (angle / length) (gradient + angle / length * (angle / length))
          (.focusing (-gradient) length) kin * edge (angle / length) edgeIn := by
  have hzero := mt (isZero_real length).1 hlength
  unfold bend
  rw [if_neg hzero]
  cases kin <;> rfl

/-- The entrance of a bend is on its first section, the exit on its second one. -/
theorem bend_add {l₁ l₂ : ℝ} (h₁ : l₁ ≠ 0) (h₂ : l₂ ≠ 0) (hsum : l₁ + l₂ ≠ 0)
    (angle edgeIn edgeOut gradient : ℝ) :
    bend (l₁ + l₂) angle edgeIn edgeOut gradient kin =
      bend l₂ (angle * l₂ / (l₁ + l₂)) 0 edgeOut gradient kin *
        bend l₁ (angle * l₁ / (l₁ + l₂)) edgeIn 0 gradient kin := by
  have hcurvature {l : ℝ} (hl : l ≠ 0) : angle * l / (l₁ + l₂) / l = angle / (l₁ + l₂) := by
    field_simp
  rw [bend_eq _ _ _ _ _ _ hsum, bend_eq _ _ _ _ _ _ h₁, bend_eq _ _ _ _ _ _ h₂, hcurvature h₁,
    hcurvature h₂, edge_zero, identity_mul, mul_identity, bendBody_add]
  simp only [mul_assoc_real]

/-- Whether a map adds nothing to the coordinates of a point. -/
def KeepsOne (r : PhaseMatrix ℝ) : Prop := ∀ i, r i Axis.one = if i = Axis.one then 1 else 0

theorem KeepsOne.mul {a b : PhaseMatrix ℝ} (ha : a.KeepsOne) (hb : b.KeepsOne) :
    (a * b).KeepsOne := by
  intro i
  rw [mul_apply, ← ha i, sumAxes, hb 0, hb 1, hb 2, hb 3, hb 4, hb 5, hb 6]
  simp [Axis.one]

theorem keepsOne_dispersive (a b : Plane ℝ) (dx dp sx sp slip : ℝ) :
    (dispersive a b dx dp sx sp slip).KeepsOne := by
  intro i
  fin_cases i <;> simp [dispersive, Axis.one]

theorem keepsOne_uncoupled (a b : Plane ℝ) (slip : ℝ) : (uncoupled a b slip).KeepsOne := by
  rw [uncoupled_eq_dispersive]
  exact keepsOne_dispersive _ _ _ _ _ _ _

theorem keepsOne_solenoid (length k : ℝ) : (solenoid length k kin).KeepsOne := by
  rw [solenoid]
  split
  · exact keepsOne_uncoupled _ _ _
  · intro i
    fin_cases i <;> simp [Axis.one]

theorem keepsOne_bend {length : ℝ} (hlength : length ≠ 0) (angle edgeIn edgeOut gradient : ℝ) :
    (bend length angle edgeIn edgeOut gradient kin).KeepsOne := by
  have hedge (curvature angle : ℝ) : (edge curvature angle).KeepsOne := by
    rw [edge_eq_uncoupled]
    exact keepsOne_uncoupled _ _ _
  rw [bend_eq _ _ _ _ _ _ hlength]
  refine ((hedge _ _).mul ?_).mul (hedge _ _)
  cases kin with
  | none => exact keepsOne_uncoupled _ _ _
  | some kin =>
    rw [bendBody, disperse_eq]
    exact keepsOne_dispersive _ _ _ _ _ _ _

end PhaseMatrix

end BeamEnvelope
