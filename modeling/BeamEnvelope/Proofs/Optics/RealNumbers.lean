import Mathlib.Analysis.SpecialFunctions.Trigonometric.Basic
import BeamEnvelope.Beam.Optics

/-!
# Beam dynamics over the real numbers

Over the real numbers nothing is rounded, so that the maps of elements can satisfy equations. A
quotient by zero is zero here and not infinite as it is for doubles; what is proved over the real
numbers asks for denominators that are not zero.
-/

namespace BeamEnvelope

namespace Scalar

open Classical in
noncomputable instance real : Scalar ℝ where
  lt a b := decide (a < b)
  eq a b := decide (a = b)
  sqrt := Real.sqrt
  sin := Real.sin
  cos := Real.cos
  tan := Real.tan
  sinh := Real.sinh
  cosh := Real.cosh
  pi := Real.pi
  degree := Real.pi / 180

variable (x : ℝ)

@[simp] theorem zero_real : (0.0 : ℝ) = 0 := by norm_num

@[simp] theorem one_real : (1.0 : ℝ) = 1 := by norm_num

@[simp] theorem two_real : (2.0 : ℝ) = 2 := by norm_num

@[simp] theorem isPositive_real : isPositive x = true ↔ 0 < x := by
  rw [isPositive, ← zero_real]
  exact decide_eq_true_iff

@[simp] theorem isNegative_real : isNegative x = true ↔ x < 0 := by
  rw [isNegative, ← zero_real]
  exact decide_eq_true_iff

@[simp] theorem isZero_real : isZero x = true ↔ x = 0 := by
  rw [isZero, ← zero_real]
  exact decide_eq_true_iff

@[simp] theorem isZero_eq_false_real : isZero x = false ↔ x ≠ 0 := by
  rw [← Bool.not_eq_true, isZero_real]

@[simp] theorem sqrt_real : sqrt x = Real.sqrt x := rfl

@[simp] theorem sin_real : sin x = Real.sin x := rfl

@[simp] theorem cos_real : cos x = Real.cos x := rfl

@[simp] theorem sinh_real : sinh x = Real.sinh x := rfl

@[simp] theorem cosh_real : cosh x = Real.cosh x := rfl

@[simp] theorem pi_real : (pi : ℝ) = Real.pi := rfl

end Scalar

end BeamEnvelope
