import BeamEnvelope.Beam.State
import BeamEnvelope.Proofs.Optics.Entries
import BeamEnvelope.Proofs.Optics.SignedZeros
import Mathlib.Tactic.SplitIfs

/-!
# Moments up to the signs of zeros

Moments that differ in signs of zeros only are mapped to such moments. The identity map leaves
moments as they are but for such signs, as long as what it gives are numbers: an infinite entry
would make others that are none.
-/

namespace BeamEnvelope

open Scalar

variable {K : Type} [Scalar K]

/-- Whether all of some quantities are numbers, finite or not. -/
def areNumbers (xs : List K) : Bool := xs.all fun a => !isNaN a

theorem isNaN_of_areNumbers {xs : List K} (h : areNumbers xs) {a : K} (ha : a ∈ xs) :
    isNaN a = false := by
  simpa using List.all_eq_true.1 h a ha

def Particle.numbers (p : Particle K) : List K :=
  [p.charge, p.restEnergy, p.kineticEnergy, p.totalEnergy, p.gamma, p.beta, p.betaGamma, p.phase,
    p.centroidEnergy]

namespace State

def centroidNumbers (st : State K) : List K := st.centroid.toList ++ st.real.numbers

def numbers (st : State K) : List K :=
  st.sigma.toLists.flatten ++ st.centroidNumbers ++ st.reference.numbers

variable {st : State K}

theorem isNaN_centroid (h : areNumbers st.centroidNumbers) (i : Axis) :
    isNaN (st.centroid i) = false :=
  isNaN_of_areNumbers h (List.mem_append_left _ (List.mem_map_of_mem (List.mem_finRange i)))

theorem isNaN_real (h : areNumbers st.centroidNumbers) {a : K} (ha : a ∈ st.real.numbers) :
    isNaN a = false :=
  isNaN_of_areNumbers h (List.mem_append_right _ ha)

theorem isNaN_sigma (h : areNumbers st.numbers) (i j : Axis) : isNaN (st.sigma i j) = false := by
  refine isNaN_of_areNumbers h (List.mem_append_left _ (List.mem_append_left _ ?_))
  exact List.mem_flatten_of_mem (List.mem_map_of_mem (List.mem_finRange i))
    (List.mem_map_of_mem (List.mem_finRange j))

theorem isNaN_reference (h : areNumbers st.numbers) {a : K} (ha : a ∈ st.reference.numbers) :
    isNaN a = false :=
  isNaN_of_areNumbers h (List.mem_append_right _ ha)

theorem areNumbers_centroidNumbers (h : areNumbers st.numbers) :
    areNumbers st.centroidNumbers := by
  rw [areNumbers, numbers, List.all_append, List.all_append, Bool.and_eq_true,
    Bool.and_eq_true] at h
  exact h.1.2

end State

variable [SignedZeros K]

namespace PhaseMatrix

variable {a b : PhaseMatrix K} {v w : PhaseVector K} {i j : Axis}

theorem alike_mul_left (r : PhaseMatrix K) (h : ∀ i j, Alike (a i j) (b i j)) (i j : Axis) :
    Alike ((r * a) i j) ((r * b) i j) := by
  rw [mul_apply, mul_apply]
  exact alike_sumAxes fun k => .mul (.refl _) (h k j)

theorem alike_mul_right (r : PhaseMatrix K) (h : ∀ i j, Alike (a i j) (b i j)) (i j : Axis) :
    Alike ((a * r) i j) ((b * r) i j) := by
  rw [mul_apply, mul_apply]
  exact alike_sumAxes fun k => .mul (h i k) (.refl _)

theorem alike_apply (r : PhaseMatrix K) (h : ∀ i, Alike (v i) (w i)) (i : Axis) :
    Alike (r.apply v i) (r.apply w i) := by
  rw [apply_apply, apply_apply]
  exact alike_sumAxes fun k => .mul (.refl _) (h k)

omit [SignedZeros K] in
theorem identity_self (i : Axis) : (identity : PhaseMatrix K) i i = 1.0 := by
  rw [identity_apply, if_pos rfl]

theorem isZero_identity (h : i ≠ j) : isZero ((identity : PhaseMatrix K) i j) = true := by
  rw [identity_apply, if_neg h]
  exact SignedZeros.isZero_zero

theorem alike_identity_mul (hnumber : isNaN ((identity * a : PhaseMatrix K) i j) = false) :
    Alike ((identity * a : PhaseMatrix K) i j) (a i j) := by
  rw [mul_apply] at hnumber ⊢
  have hvoid : ∀ k, k ≠ i → IsVoid ((identity : PhaseMatrix K) i k * a k j) := fun k hk =>
    SignedZeros.isVoid_zero_mul _ (isZero_identity hk.symm)
  have hone := alike_sumAxes_single hvoid hnumber
  rwa [identity_self, SignedZeros.one_mul] at hone

theorem alike_mul_identity
    (hnumber : isNaN ((a * identity.transpose : PhaseMatrix K) i j) = false) :
    Alike ((a * identity.transpose : PhaseMatrix K) i j) (a i j) := by
  rw [mul_apply] at hnumber ⊢
  have hvoid : ∀ k, k ≠ j → IsVoid (a i k * (identity : PhaseMatrix K).transpose k j) := by
    intro k hk
    rw [transpose_apply]
    exact SignedZeros.isVoid_mul_zero _ (isZero_identity hk.symm)
  have hone := alike_sumAxes_single hvoid hnumber
  rwa [transpose_apply, identity_self, SignedZeros.mul_one] at hone

theorem alike_identity_apply (hnumber : isNaN (identity.apply v i) = false) :
    Alike (identity.apply v i) (v i) := by
  rw [apply_apply] at hnumber ⊢
  have hvoid : ∀ k, k ≠ i → IsVoid ((identity : PhaseMatrix K) i k * v k) := fun k hk =>
    SignedZeros.isVoid_zero_mul _ (isZero_identity hk.symm)
  have hone := alike_sumAxes_single hvoid hnumber
  rwa [identity_self, SignedZeros.one_mul] at hone

end PhaseMatrix

namespace State

variable {st st' : State K}

/-- Moments that differ in the signs of zeros at most. -/
structure AlikeMoments (st st' : State K) : Prop where
  sigma (i j : Axis) : Alike (st.sigma i j) (st'.sigma i j)
  centroid (i : Axis) : Alike (st.centroid i) (st'.centroid i)

theorem AlikeMoments.transport (h : st.AlikeMoments st') (r : PhaseMatrix K) :
    (st.transport r).AlikeMoments (st'.transport r) where
  sigma := PhaseMatrix.alike_mul_right _ (PhaseMatrix.alike_mul_left r h.sigma)
  centroid i := by
    simp only [State.transport, PhaseVector.set_apply]
    split
    · exact .refl _
    · exact PhaseMatrix.alike_apply r h.centroid i

/-- The identity leaves moments as they are, as long as it leaves numbers. -/
theorem alikeMoments_identity (hone : st.centroid Axis.one = 1.0)
    (hsigma : ∀ i j, isNaN ((st.transport .identity).sigma i j) = false)
    (hcentroid : ∀ i, isNaN ((st.transport .identity).centroid i) = false) :
    (st.transport .identity).AlikeMoments st where
  sigma i j := by
    have houter := PhaseMatrix.alike_mul_identity (hsigma i j)
    have hinner := houter.isNaN_eq.symm.trans (hsigma i j)
    exact houter.trans (PhaseMatrix.alike_identity_mul hinner)
  centroid i := by
    have hnumber := hcentroid i
    change isNaN (((PhaseMatrix.identity.apply st.centroid).set Axis.one 1.0) i) = false at hnumber
    change Alike (((PhaseMatrix.identity.apply st.centroid).set Axis.one 1.0) i) (st.centroid i)
    rw [PhaseVector.set_apply] at hnumber ⊢
    split_ifs at hnumber ⊢ with hi
    · rw [hi, hone]
      exact .refl _
    · exact PhaseMatrix.alike_identity_apply hnumber

end State

end BeamEnvelope
