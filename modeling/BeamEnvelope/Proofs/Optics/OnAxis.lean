import BeamEnvelope.Proofs.Optics.Entries
import BeamEnvelope.Proofs.Optics.SignedZeros
import Mathlib.Data.Fintype.Basic
import Mathlib.Tactic.FinCases

/-!
# Maps of the axis

The maps of all elements but generic ones are linear on the six coordinates: they shift nothing. So
they take the axis to itself, as far as the images are numbers.
-/

namespace BeamEnvelope

open Scalar

variable {K : Type} [Scalar K]

/-- Zero in all six coordinates. -/
def PhaseVector.IsOnAxis (v : PhaseVector K) : Prop := ∀ i, i ≠ Axis.one → isZero (v i) = true

instance {K : Type} {_ : Scalar K} (v : PhaseVector K) : Decidable v.IsOnAxis :=
  inferInstanceAs (Decidable (∀ i, i ≠ Axis.one → isZero (v i) = true))

namespace PhaseMatrix

/-- What a map adds to the coordinates of a point is void. -/
def KeepsAxis (r : PhaseMatrix K) : Prop := ∀ i, i ≠ Axis.one → IsVoid (r i Axis.one)

variable [SignedZeros K] {r a b : PhaseMatrix K} {v : PhaseVector K} {i j : Axis}

theorem KeepsAxis.isVoid_apply (hr : r.KeepsAxis) (hv : v.IsOnAxis) (hi : i ≠ Axis.one) :
    IsVoid (r.apply v i) := by
  rw [apply_apply]
  refine isVoid_sumAxes fun k => ?_
  by_cases hk : k = Axis.one
  · rw [hk]
    exact (hr i hi).mul_right _
  · exact IsVoid.mul_left (.inl (hv k hk)) _

theorem KeepsAxis.mul (ha : a.KeepsAxis) (hb : b.KeepsAxis) : (a * b).KeepsAxis := by
  intro i hi
  rw [mul_apply]
  refine isVoid_sumAxes fun k => ?_
  by_cases hk : k = Axis.one
  · rw [hk]
    exact (ha i hi).mul_right _
  · exact (hb k hk).mul_left _

omit [SignedZeros K] in
theorem KeepsAxis.set (ha : a.KeepsAxis) (hj : j ≠ Axis.one) (i : Axis) (c : K) :
    (a.set i j c).KeepsAxis := by
  intro k hk
  rw [set_apply, if_neg fun h => hj h.2.symm]
  exact ha k hk

/-- A map without shifts. -/
theorem keepsAxis_of_eq_zero (h : ∀ i, i ≠ Axis.one → r i Axis.one = 0.0) : r.KeepsAxis := by
  intro i hi
  rw [h i hi]
  exact .inl SignedZeros.isZero_zero

theorem keepsAxis_identity : (identity : PhaseMatrix K).KeepsAxis :=
  keepsAxis_of_eq_zero fun i hi => by rw [identity_apply, if_neg hi]

theorem keepsAxis_uncoupled (a b : Plane K) (slip : K) : (uncoupled a b slip).KeepsAxis := by
  refine keepsAxis_of_eq_zero fun i hi => ?_
  fin_cases i <;> first | rfl | exact absurd rfl hi

variable (kin : Option (Kinematics K))

theorem keepsAxis_drift (length : K) : (drift length kin).KeepsAxis := keepsAxis_uncoupled _ _ _

theorem keepsAxis_quadrupole (length k : K) : (quadrupole length k kin).KeepsAxis :=
  keepsAxis_uncoupled _ _ _

theorem keepsAxis_edge (curvature angle : K) : (edge curvature angle).KeepsAxis :=
  (keepsAxis_identity.set (by decide) _ _).set (by decide) _ _

omit [SignedZeros K] in
theorem KeepsAxis.disperse (ha : a.KeepsAxis) (k : Kinematics K) (length h kx : K) (p : Plane K) :
    (PhaseMatrix.disperse a k length h kx p).KeepsAxis :=
  ((((ha.set (by decide) _ _).set (by decide) _ _).set (by decide) _ _).set (by decide) _ _).set
    (by decide) _ _

theorem keepsAxis_bend (length angle edgeIn edgeOut k : K) :
    (bend length angle edgeIn edgeOut k kin).KeepsAxis := by
  refine ((keepsAxis_edge _ _).mul ?_).mul (keepsAxis_edge _ _)
  cases kin with
  | none => exact keepsAxis_uncoupled _ _ _
  | some kin => exact (keepsAxis_uncoupled _ _ _).disperse _ _ _ _ _

theorem keepsAxis_solenoid (length k : K) : (solenoid length k kin).KeepsAxis := by
  rw [solenoid]
  split
  · exact keepsAxis_drift kin length
  · refine keepsAxis_of_eq_zero fun i hi => ?_
    fin_cases i <;> first | rfl | exact absurd rfl hi

theorem keepsAxis_gap (transverseKick damping energyKick : K) :
    (gap transverseKick damping energyKick).KeepsAxis := by
  refine keepsAxis_of_eq_zero fun i hi => ?_
  fin_cases i <;> first | rfl | exact absurd rfl hi

end PhaseMatrix

end BeamEnvelope
