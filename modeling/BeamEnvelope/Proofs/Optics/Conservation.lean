import BeamEnvelope.Proofs.Optics.RealNumbers
import BeamEnvelope.Proofs.Optics.Entries
import Mathlib.LinearAlgebra.Matrix.Notation

/-!
# Conserved phase space

Areas of phase space, with the slopes scaled by the momentum of the beam and the phase by the length
it stands for, are a bilinear form that the maps of all elements leave as it is. A map that takes a
beam from one momentum to another one takes the form of the latter back to that of the former.
-/

namespace BeamEnvelope

open Scalar

namespace PhaseMatrix

/-- The antisymmetric form with weight `g` on both transverse planes and `w` on the longitudinal
one. -/
def form (g w : ℝ) : PhaseMatrix ℝ := ⟨#v[
  #v[0, g, 0, 0, 0, 0, 0],
  #v[-g, 0, 0, 0, 0, 0, 0],
  #v[0, 0, 0, g, 0, 0, 0],
  #v[0, 0, -g, 0, 0, 0, 0],
  #v[0, 0, 0, 0, 0, w, 0],
  #v[0, 0, 0, 0, -w, 0, 0],
  #v[0, 0, 0, 0, 0, 0, 0]]⟩

/-- The map takes a form behind it back to one in front of it. -/
def Conserves (front behind r : PhaseMatrix ℝ) : Prop := r.transpose * behind * r = front

/-- The area spanned by two columns. -/
def area (g w : ℝ) (r : PhaseMatrix ℝ) (i j : Axis) : ℝ :=
  g * (r Axis.x i * r Axis.px j - r Axis.px i * r Axis.x j) +
    g * (r Axis.y i * r Axis.py j - r Axis.py i * r Axis.y j) +
    w * (r Axis.s i * r Axis.ps j - r Axis.ps i * r Axis.s j)

theorem area_eq (g w : ℝ) (r : PhaseMatrix ℝ) (i j : Axis) : area g w r i j =
    g * (r 0 i * r 1 j - r 1 i * r 0 j) + g * (r 2 i * r 3 j - r 3 i * r 2 j) +
      w * (r 4 i * r 5 j - r 5 i * r 4 j) := rfl

theorem transpose_mul_form_mul_apply (g w : ℝ) (r : PhaseMatrix ℝ) (i j : Axis) :
    (r.transpose * form g w * r) i j = area g w r i j := by
  simp only [mul_apply, transpose_apply, sumAxes, area_eq]
  simp [form]
  ring

/-- A form is antisymmetric, and so it is enough to look at columns in their order. -/
theorem conserves_of_lt {w g g' : ℝ} {r : PhaseMatrix ℝ}
    (h : ∀ i j, i < j → area g' w r i j = form g w i j) : Conserves (form g w) (form g' w) r := by
  have harea (i j : Axis) : area g' w r i j = -area g' w r j i := by
    rw [area, area]
    ring
  have hform (i j : Axis) : form g w i j = -form g w j i := by
    fin_cases i <;> fin_cases j <;> simp [form]
  refine ext_apply fun i j => ?_
  rw [transpose_mul_form_mul_apply]
  rcases lt_trichotomy i j with hij | rfl | hij
  · exact h i j hij
  · have h0 : area g' w r i i = 0 := by linarith [harea i i]
    have h0' : form g w i i = 0 := by linarith [hform i i]
    rw [h0, h0']
  · rw [harea, hform, h j i hij]

def toMatrix (a : PhaseMatrix ℝ) : Matrix Axis Axis ℝ := Matrix.of fun i j => a i j

theorem toMatrix_injective : Function.Injective toMatrix := fun _ _ h =>
  ext_apply fun i j => congrFun (congrFun h i) j

theorem toMatrix_mul (a b : PhaseMatrix ℝ) : (a * b).toMatrix = a.toMatrix * b.toMatrix := by
  ext i j
  rw [Matrix.mul_apply, Fin.sum_univ_seven]
  exact mul_apply a b i j

theorem toMatrix_transpose (a : PhaseMatrix ℝ) : a.transpose.toMatrix = a.toMatrix.transpose := by
  ext i j
  exact transpose_apply a i j

theorem mul_assoc_real (a b c : PhaseMatrix ℝ) : a * b * c = a * (b * c) := by
  apply toMatrix_injective
  simp only [toMatrix_mul, Matrix.mul_assoc]

theorem transpose_mul (a b : PhaseMatrix ℝ) : (a * b).transpose = b.transpose * a.transpose := by
  apply toMatrix_injective
  simp only [toMatrix_mul, toMatrix_transpose, Matrix.transpose_mul]

/-- Maps one after the other conserve phase space from end to end. -/
theorem Conserves.mul {front mid behind a b : PhaseMatrix ℝ} (ha : Conserves front mid a)
    (hb : Conserves mid behind b) : Conserves front behind (b * a) := by
  calc (b * a).transpose * behind * (b * a) = a.transpose * (b.transpose * behind * b) * a := by
        rw [transpose_mul]
        simp only [mul_assoc_real]
    _ = a.transpose * mid * a := by rw [hb]
    _ = front := ha

end PhaseMatrix

namespace Plane

def det (a : Plane ℝ) : ℝ := a.xx * a.pp - a.xp * a.px

/-- What the solutions of `x'' + k x = 0` have in common, whatever the sign of `k`. -/
theorem focusing_spec (k length : ℝ) : (focusing k length).pp = (focusing k length).xx ∧
    (focusing k length).px = -k * (focusing k length).xp ∧ (focusing k length).det = 1 := by
  rw [focusing, det]
  split
  · rename_i hk
    rw [isPositive_real] at hk
    have hw : Real.sqrt k ≠ 0 := (Real.sqrt_pos.2 hk).ne'
    have hsq : Real.sqrt k ^ 2 = k := Real.sq_sqrt hk.le
    refine ⟨rfl, ?_, ?_⟩
    · simp only [sqrt_real, sin_real]
      field_simp
      rw [hsq, mul_comm]
    · simp only [sqrt_real, sin_real, cos_real]
      field_simp
      linear_combination Real.sin_sq_add_cos_sq (Real.sqrt k * length)
  · split
    · rename_i hk
      rw [isNegative_real] at hk
      have hw : Real.sqrt (-k) ≠ 0 := (Real.sqrt_pos.2 (neg_pos.2 hk)).ne'
      have hsq : Real.sqrt (-k) ^ 2 = -k := Real.sq_sqrt (neg_pos.2 hk).le
      refine ⟨rfl, ?_, ?_⟩
      · simp only [sqrt_real, sinh_real]
        field_simp
        rw [hsq, neg_mul]
      · simp only [sqrt_real, sinh_real, cosh_real]
        field_simp
        linear_combination Real.cosh_sq (Real.sqrt (-k) * length)
    · rename_i hpos hneg
      rw [isPositive_real] at hpos
      rw [isNegative_real] at hneg
      have hk : k = 0 := le_antisymm (not_lt.1 hpos) (not_lt.1 hneg)
      simp [hk]

@[simp] theorem det_focusing (k length : ℝ) : (focusing k length).det = 1 :=
  (focusing_spec k length).2.2

end Plane

namespace PhaseMatrix

/-- Two planes, the first of which is coupled with phase and energy. -/
def dispersive (a b : Plane ℝ) (dx dp sx sp slip : ℝ) : PhaseMatrix ℝ := ⟨#v[
  #v[a.xx, a.xp, 0, 0, 0, dx, 0],
  #v[a.px, a.pp, 0, 0, 0, dp, 0],
  #v[0, 0, b.xx, b.xp, 0, 0, 0],
  #v[0, 0, b.px, b.pp, 0, 0, 0],
  #v[sx, sp, 0, 0, 1, slip, 0],
  #v[0, 0, 0, 0, 0, 1, 0],
  #v[0, 0, 0, 0, 0, 0, 1]]⟩

theorem conserves_dispersive {w g g' dx dp sx sp slip : ℝ} {a b : Plane ℝ}
    (ha : g' * a.det = g) (hb : g' * b.det = g) (hx : g' * (a.xx * dp - a.px * dx) + w * sx = 0)
    (hp : g' * (a.xp * dp - a.pp * dx) + w * sp = 0) :
    Conserves (form g w) (form g' w) (dispersive a b dx dp sx sp slip) := by
  rw [Plane.det] at ha hb
  refine conserves_of_lt fun i j hij => ?_
  fin_cases i <;> fin_cases j <;> simp [area_eq, form, dispersive] at hij ⊢
  · linear_combination ha
  · linear_combination hx
  · linear_combination hp
  · linear_combination hb

theorem uncoupled_eq_dispersive (a b : Plane ℝ) (slip : ℝ) :
    uncoupled a b slip = dispersive a b 0 0 0 0 slip := by
  simp [uncoupled, dispersive]

theorem conserves_uncoupled {w g g' : ℝ} {a b : Plane ℝ} (slip : ℝ) (ha : g' * a.det = g)
    (hb : g' * b.det = g) : Conserves (form g w) (form g' w) (uncoupled a b slip) := by
  rw [uncoupled_eq_dispersive]
  exact conserves_dispersive ha hb (by ring) (by ring)

section Maps

variable (w g : ℝ)

theorem conserves_drift (length : ℝ) (kin : Option (Kinematics ℝ)) :
    Conserves (form g w) (form g w) (drift length kin) :=
  conserves_uncoupled _ (by simp) (by simp)

theorem conserves_quadrupole (length k : ℝ) (kin : Option (Kinematics ℝ)) :
    Conserves (form g w) (form g w) (quadrupole length k kin) :=
  conserves_uncoupled _ (by simp) (by simp)

theorem identity_eq_uncoupled :
    (identity : PhaseMatrix ℝ) = uncoupled ⟨1, 0, 0, 1⟩ ⟨1, 0, 0, 1⟩ 0 := by
  refine ext_apply fun i j => ?_
  rw [identity_apply]
  fin_cases i <;> fin_cases j <;> simp [uncoupled]

theorem conserves_identity : Conserves (form g w) (form g w) identity := by
  rw [identity_eq_uncoupled]
  exact conserves_uncoupled _ (by simp [Plane.det]) (by simp [Plane.det])

theorem edge_eq_uncoupled (curvature angle : ℝ) :
    edge curvature angle = uncoupled ⟨1, 0, tan angle * curvature, 1⟩
      ⟨1, 0, -(tan angle * curvature), 1⟩ 0 := by
  rw [edge, identity_eq_uncoupled]
  refine ext_apply fun i j => ?_
  simp only [set_apply]
  fin_cases i <;> fin_cases j <;> simp [uncoupled, Axis.px, Axis.x, Axis.py, Axis.y]

theorem conserves_edge (curvature angle : ℝ) :
    Conserves (form g w) (form g w) (edge curvature angle) := by
  rw [edge_eq_uncoupled]
  exact conserves_uncoupled _ (by simp [Plane.det]) (by simp [Plane.det])

theorem conserves_solenoid (length k : ℝ) (kin : Option (Kinematics ℝ)) :
    Conserves (form g w) (form g w) (solenoid length k kin) := by
  by_cases hk : k = 0
  · rw [solenoid, if_pos ((isZero_real k).2 hk)]
    exact conserves_drift w g length kin
  · have hsq := Real.sin_sq_add_cos_sq (k * length)
    rw [solenoid, if_neg (mt (isZero_real k).1 hk)]
    refine conserves_of_lt fun i j hij => ?_
    fin_cases i <;> fin_cases j <;> simp [area_eq, form] at hij ⊢ <;> field_simp
    · linear_combination g * (Real.sin (k * length) ^ 2 + Real.cos (k * length) ^ 2 + 1) * hsq
    · ring
    · ring
    · ring
    · ring
    · linear_combination g * (Real.sin (k * length) ^ 2 + Real.cos (k * length) ^ 2 + 1) * hsq

/-- The damping of the slopes makes up for the gain of momentum; the kicks are free. -/
theorem conserves_gap {g' damping : ℝ} (hg : g' * damping = g) (transverseKick energyKick : ℝ) :
    Conserves (form g w) (form g' w) (gap transverseKick damping energyKick) := by
  refine conserves_of_lt fun i j hij => ?_
  fin_cases i <;> fin_cases j <;> simp [area_eq, form, gap] at hij ⊢
  · exact hg
  · exact hg

end Maps

section Bends

variable (k length : ℝ)

/-- The offset of a particle in a bend per momentum offset and curvature. -/
noncomputable def dispersion : ℝ :=
  if isZero k then length * length / 2.0 else (1.0 - (Plane.focusing k length).xx) / k

theorem dispersion_spec : k * dispersion k length = 1 - (Plane.focusing k length).xx ∧
    (Plane.focusing k length).xp * (Plane.focusing k length).xp =
      dispersion k length * (1 + (Plane.focusing k length).xx) := by
  obtain ⟨hpp, hpx, hdet⟩ := Plane.focusing_spec k length
  rw [Plane.det, hpp, hpx] at hdet
  rw [dispersion]
  by_cases hk : k = 0
  · rw [if_pos ((isZero_real k).2 hk)]
    subst hk
    simp [Plane.focusing]
    ring
  · rw [if_neg (mt (isZero_real k).1 hk)]
    simp only [one_real]
    refine ⟨by field_simp, ?_⟩
    field_simp
    linear_combination hdet

end Bends

theorem set_uncoupled (a b : Plane ℝ) (dx dp sx sp slip : ℝ) :
    (((((uncoupled a b 0.0).set Axis.x Axis.ps dx).set Axis.px Axis.ps dp).set
      Axis.s Axis.x sx).set Axis.s Axis.px sp).set Axis.s Axis.ps slip =
        dispersive a b dx dp sx sp slip := by
  refine ext_apply fun i j => ?_
  simp only [set_apply]
  fin_cases i <;> fin_cases j <;>
    simp [uncoupled, dispersive, Axis.x, Axis.px, Axis.s, Axis.ps]

/-- What a bend makes of an energy offset it takes from the path length: the phase per length and
the momentum per energy are weighted alike. -/
theorem conserves_disperse {w g : ℝ} {kin : Kinematics ℝ}
    (hkin : g * kin.momentumPerEnergy + w * kin.phasePerLength = 0) (length h k : ℝ)
    (b : Plane ℝ) (hb : b.det = 1) :
    Conserves (form g w) (form g w)
      (disperse (uncoupled (.focusing k length) b 0.0) kin length h k (.focusing k length)) := by
  obtain ⟨hpp, hpx, -⟩ := Plane.focusing_spec k length
  obtain ⟨hdx, hdp⟩ := dispersion_spec k length
  have hslip : ∃ slip,
      disperse (uncoupled (.focusing k length) b 0.0) kin length h k (.focusing k length) =
        dispersive (.focusing k length) b (h * dispersion k length * kin.momentumPerEnergy)
          (h * (Plane.focusing k length).xp * kin.momentumPerEnergy)
          (kin.phasePerLength * h * (Plane.focusing k length).xp)
          (kin.phasePerLength * h * dispersion k length) slip := ⟨_, set_uncoupled ..⟩
  obtain ⟨slip, hslip⟩ := hslip
  rw [hslip]
  refine conserves_dispersive (by simp) (by simp [hb]) ?_ ?_
  · rw [hpx]
    linear_combination (h * (Plane.focusing k length).xp) * hkin +
      g * h * kin.momentumPerEnergy * (Plane.focusing k length).xp * hdx
  · rw [hpp]
    linear_combination (h * dispersion k length) * hkin +
      g * h * kin.momentumPerEnergy * hdp

theorem conserves_bend {w g : ℝ} {kin : Option (Kinematics ℝ)}
    (hkin : ∀ k, kin = some k → g * k.momentumPerEnergy + w * k.phasePerLength = 0)
    (length angle edgeIn edgeOut gradient : ℝ) :
    Conserves (form g w) (form g w) (bend length angle edgeIn edgeOut gradient kin) := by
  have hedges {body : PhaseMatrix ℝ} (h : ℝ) (hbody : Conserves (form g w) (form g w) body) :
      Conserves (form g w) (form g w) (edge h edgeOut * body * edge h edgeIn) :=
    (conserves_edge w g h edgeIn).mul (hbody.mul (conserves_edge w g h edgeOut))
  cases kin with
  | some kin => exact hedges _ (conserves_disperse (hkin kin rfl) length _ _ _ (by simp))
  | none => exact hedges _ (conserves_uncoupled _ (by simp) (by simp))

end PhaseMatrix

end BeamEnvelope
