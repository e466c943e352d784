import BeamEnvelope.Beam.PhaseSpace

/-!
# Entries of vectors and maps

Every operation on phase space, entry by entry.
-/

namespace BeamEnvelope

variable {K : Type}

namespace PhaseVector

theorem set_apply (v : PhaseVector K) (i : Axis) (a : K) (j : Axis) :
    v.set i a j = if j = i then a else v j := ofFn_apply _ j

end PhaseVector

namespace PhaseMatrix

theorem ext_apply {a b : PhaseMatrix K} (h : ∀ i j, a i j = b i j) : a = b := by
  cases a
  cases b
  congr
  ext i hi j hj
  exact h ⟨i, hi⟩ ⟨j, hj⟩

theorem set_apply (a : PhaseMatrix K) (i j : Axis) (c : K) (k l : Axis) :
    a.set i j c k l = if k = i ∧ l = j then c else a k l := ofFn_apply _ k l

theorem transpose_apply (a : PhaseMatrix K) (i j : Axis) : a.transpose i j = a j i :=
  ofFn_apply _ i j

variable [Scalar K]

theorem identity_apply (i j : Axis) :
    (identity : PhaseMatrix K) i j = if i = j then 1.0 else 0.0 := ofFn_apply _ i j

theorem mul_apply (a b : PhaseMatrix K) (i j : Axis) :
    (a * b) i j = sumAxes fun k => a i k * b k j := ofFn_apply _ i j

theorem apply_apply (a : PhaseMatrix K) (v : PhaseVector K) (i : Axis) :
    a.apply v i = sumAxes fun k => a i k * v k := PhaseVector.ofFn_apply _ i

end PhaseMatrix

end BeamEnvelope
