import BeamEnvelope.Beam.Optics

/-!
# Numbers with signed zeros

Rounded numbers have two zeros that compare equal, and operations on numbers that are not finite may
give what is no number at all. A quantity that is zero, on whichever side, stays so as long as
every result is a number, and two quantities that differ at most in the sign of a zero stay alike.
What is used of the numbers for that is a class, so that nothing here depends on how they round.
-/

namespace BeamEnvelope

namespace Scalar

variable {K : Type} [Scalar K] {a b c : K}

/-- Whether a quantity is no number: it does not even equal itself. -/
def isNaN (x : K) : Bool := !eq x x

def IsVoid (x : K) : Prop := isZero x = true ∨ isNaN x = true

/-- Equal up to the sign of zero. -/
def Alike (a b : K) : Prop := a = b ∨ isZero a = true ∧ isZero b = true

theorem IsVoid.zero_of_number (h : IsVoid a) (hnumber : isNaN a = false) : isZero a = true :=
  h.resolve_right (by simp [hnumber])

theorem Alike.refl (a : K) : Alike a a := .inl rfl

theorem Alike.symm (h : Alike a b) : Alike b a := h.imp Eq.symm And.symm

theorem Alike.trans (h : Alike a b) (h' : Alike b c) : Alike a c := by
  rcases h with rfl | ⟨ha, hb⟩
  · exact h'
  · rcases h' with rfl | ⟨-, hc⟩
    · exact .inr ⟨ha, hb⟩
    · exact .inr ⟨ha, hc⟩

end Scalar

open Scalar

/-- What the operations make of zeros and of what is no number. -/
class SignedZeros (K : Type) [Scalar K] : Prop where
  isZero_zero : isZero (0.0 : K) = true
  eq_of_isZero {a b : K} : isZero a = true → isZero b = true → eq a b = true
  alike_of_eq {a b : K} : eq a b = true → Alike a b
  isZero_eq_false_of_isPositive {a : K} : isPositive a = true → isZero a = false
  zero_add {a : K} (x : K) : isZero a = true → Alike (a + x) x
  add_zero {a : K} (x : K) : isZero a = true → Alike (x + a) x
  zero_sub {a b : K} (x : K) : isZero a = true → isZero b = true → Alike (a - x) (b - x)
  sub_zero {a : K} (x : K) : isZero a = true → Alike (x - a) x
  isVoid_sub_self (x : K) : IsVoid (x - x)
  isVoid_zero_mul {a : K} (x : K) : isZero a = true → IsVoid (a * x)
  isVoid_mul_zero {a : K} (x : K) : isZero a = true → IsVoid (x * a)
  isVoid_zero_div {a : K} (x : K) : isZero a = true → IsVoid (a / x)
  zero_mul {a b : K} (x : K) : isZero a = true → isZero b = true → Alike (a * x) (b * x)
  mul_zero {a b : K} (x : K) : isZero a = true → isZero b = true → Alike (x * a) (x * b)
  zero_div {a b : K} (x : K) : isZero a = true → isZero b = true → Alike (a / x) (b / x)
  one_mul (x : K) : 1.0 * x = x
  mul_one (x : K) : x * 1.0 = x
  isNaN_add_left {a : K} (x : K) : isNaN a = true → isNaN (a + x) = true
  isNaN_add_right {a : K} (x : K) : isNaN a = true → isNaN (x + a) = true
  isNaN_sub_left {a : K} (x : K) : isNaN a = true → isNaN (a - x) = true
  isNaN_mul_left {a : K} (x : K) : isNaN a = true → isNaN (a * x) = true
  isNaN_mul_right {a : K} (x : K) : isNaN a = true → isNaN (x * a) = true
  isNaN_div_left {a : K} (x : K) : isNaN a = true → isNaN (a / x) = true
  cos_eq_of_isZero {a b : K} : isZero a = true → isZero b = true → cos a = cos b
  isNaN_cos {a : K} : isNaN a = true → isNaN (cos a) = true

namespace Scalar

variable {K : Type} [Scalar K] [SignedZeros K] {a b c d x y : K}

theorem isNaN_eq_false_of_isZero (h : isZero a = true) : isNaN a = false := by
  rw [isNaN, SignedZeros.eq_of_isZero h h]
  rfl

theorem IsVoid.add (ha : IsVoid a) (hb : IsVoid b) : IsVoid (a + b) := by
  rcases ha with ha | ha
  · rcases SignedZeros.zero_add b ha with h | ⟨h, -⟩
    · rwa [h]
    · exact .inl h
  · exact .inr (SignedZeros.isNaN_add_left b ha)

theorem IsVoid.mul_right (h : IsVoid a) (x : K) : IsVoid (a * x) := by
  rcases h with h | h
  · exact SignedZeros.isVoid_zero_mul x h
  · exact .inr (SignedZeros.isNaN_mul_left x h)

theorem IsVoid.mul_left (h : IsVoid a) (x : K) : IsVoid (x * a) := by
  rcases h with h | h
  · exact SignedZeros.isVoid_mul_zero x h
  · exact .inr (SignedZeros.isNaN_mul_right x h)

theorem IsVoid.div (h : IsVoid a) (x : K) : IsVoid (a / x) := by
  rcases h with h | h
  · exact SignedZeros.isVoid_zero_div x h
  · exact .inr (SignedZeros.isNaN_div_left x h)

/-- What is added to give a number is a number. -/
theorem IsVoid.isZero_of_add (h : IsVoid a) (hsum : isNaN (x + a) = false) : isZero a = true := by
  refine h.zero_of_number (Bool.eq_false_iff.2 fun hnan => ?_)
  rw [SignedZeros.isNaN_add_right x hnan] at hsum
  cases hsum

theorem IsVoid.isZero_of_add_left (h : IsVoid a) (hsum : isNaN (a + x) = false) :
    isZero a = true := by
  refine h.zero_of_number (Bool.eq_false_iff.2 fun hnan => ?_)
  rw [SignedZeros.isNaN_add_left x hnan] at hsum
  cases hsum

theorem IsVoid.add_alike_right (h : IsVoid a) (hsum : isNaN (a + x) = false) : Alike (a + x) x :=
  SignedZeros.zero_add x (h.isZero_of_add_left hsum)

/-- Something void changes a sum by the sign of a zero at most. -/
theorem IsVoid.add_alike (h : IsVoid a) (hsum : isNaN (x + a) = false) : Alike (x + a) x :=
  SignedZeros.add_zero x (h.isZero_of_add hsum)

theorem Alike.isNaN_eq (h : Alike a b) : isNaN a = isNaN b := by
  rcases h with rfl | ⟨ha, hb⟩
  · rfl
  · rw [isNaN_eq_false_of_isZero ha, isNaN_eq_false_of_isZero hb]

/-- Alike numbers compare equal. -/
theorem Alike.eq (h : Alike a b) (ha : isNaN a = false) : eq a b = true := by
  rcases h with rfl | ⟨ha, hb⟩
  · simpa [isNaN] using ha
  · exact SignedZeros.eq_of_isZero ha hb

theorem Alike.add (h : Alike a b) (h' : Alike c d) : Alike (a + c) (b + d) := by
  have hleft : Alike (a + c) (b + c) := by
    rcases h with rfl | ⟨ha, hb⟩
    · exact .refl _
    · exact (SignedZeros.zero_add c ha).trans (SignedZeros.zero_add c hb).symm
  have hright : Alike (b + c) (b + d) := by
    rcases h' with rfl | ⟨hc, hd⟩
    · exact .refl _
    · exact (SignedZeros.add_zero b hc).trans (SignedZeros.add_zero b hd).symm
  exact hleft.trans hright

theorem Alike.sub (h : Alike a b) (h' : Alike c d) : Alike (a - c) (b - d) := by
  have hleft : Alike (a - c) (b - c) := by
    rcases h with rfl | ⟨ha, hb⟩
    · exact .refl _
    · exact SignedZeros.zero_sub c ha hb
  have hright : Alike (b - c) (b - d) := by
    rcases h' with rfl | ⟨hc, hd⟩
    · exact .refl _
    · exact (SignedZeros.sub_zero b hc).trans (SignedZeros.sub_zero b hd).symm
  exact hleft.trans hright

theorem Alike.mul (h : Alike a b) (h' : Alike c d) : Alike (a * c) (b * d) := by
  have hleft : Alike (a * c) (b * c) := by
    rcases h with rfl | ⟨ha, hb⟩
    · exact .refl _
    · exact SignedZeros.zero_mul c ha hb
  have hright : Alike (b * c) (b * d) := by
    rcases h' with rfl | ⟨hc, hd⟩
    · exact .refl _
    · exact SignedZeros.mul_zero b hc hd
  exact hleft.trans hright

theorem Alike.div (h : Alike a b) (x : K) : Alike (a / x) (b / x) := by
  rcases h with rfl | ⟨ha, hb⟩
  · exact .refl _
  · exact SignedZeros.zero_div x ha hb

theorem Alike.cos_eq (h : Alike a b) : cos a = cos b := by
  rcases h with rfl | ⟨ha, hb⟩
  · rfl
  · exact SignedZeros.cos_eq_of_isZero ha hb

theorem Alike.cos (h : Alike a b) : Alike (Scalar.cos a) (Scalar.cos b) := .inl h.cos_eq

/-- The sign of a zero is lost beside a positive number. -/
theorem Alike.positive_add_eq (h : Alike a b) (hx : isPositive x = true) : x + a = x + b := by
  have hpositive := SignedZeros.isZero_eq_false_of_isPositive hx
  have hunchanged {a : K} (ha : isZero a = true) : x + a = x := by
    rcases SignedZeros.add_zero x ha with h | ⟨-, h⟩
    · exact h
    · rw [hpositive] at h
      cases h
  rcases h with rfl | ⟨ha, hb⟩
  · rfl
  · rw [hunchanged ha, hunchanged hb]

/-- So it does not show in the velocity of a particle with a mass. -/
theorem Alike.velocity_eq (h : Alike a b) (hx : isPositive x = true) :
    Particle.velocity x a = Particle.velocity x b := by
  rw [Particle.velocity, Particle.velocity, h.positive_add_eq hx]

/-- The difference of alike quantities is zero or no number. -/
theorem Alike.isVoid_sub (h : Alike a b) : IsVoid (a - b) := by
  rcases h.sub (.refl b) with heq | ⟨hzero, -⟩
  · rw [heq]
    exact SignedZeros.isVoid_sub_self b
  · exact .inl hzero

end Scalar

namespace PhaseMatrix

variable {K : Type} [Scalar K] [SignedZeros K]
variable {f g : Axis → K} {ks : List Axis} {i j : Axis} {s : K}

theorem isVoid_sumAxes (h : ∀ k, IsVoid (f k)) : IsVoid (sumAxes f) :=
  ((((((h 0).add (h 1)).add (h 2)).add (h 3)).add (h 4)).add (h 5)).add (h 6)

theorem alike_sumAxes (h : ∀ k, Alike (f k) (g k)) : Alike (sumAxes f) (sumAxes g) :=
  ((((((h 0).add (h 1)).add (h 2)).add (h 3)).add (h 4)).add (h 5)).add (h 6)

/-- Void terms leave a sum as it was. -/
theorem alike_foldl_of_isVoid (hks : ∀ k ∈ ks, IsVoid (f k))
    (hsum : isNaN (ks.foldl (fun t k => t + f k) s) = false) :
    Alike (ks.foldl (fun t k => t + f k) s) s := by
  induction ks generalizing s with
  | nil => exact .refl s
  | cons k ks ih =>
    obtain ⟨hk, hks⟩ := List.forall_mem_cons.1 hks
    rw [List.foldl_cons] at hsum ⊢
    have hrest := ih hks hsum
    rw [hrest.isNaN_eq] at hsum
    exact hrest.trans (hk.add_alike hsum)

/-- Of a sum in which all terms but one are void that one is left. -/
theorem alike_foldl (hs : IsVoid s) (hi : i ∈ ks) (hdistinct : ks.Nodup)
    (hks : ∀ k ∈ ks, k ≠ i → IsVoid (f k))
    (hsum : isNaN (ks.foldl (fun t k => t + f k) s) = false) :
    Alike (ks.foldl (fun t k => t + f k) s) (f i) := by
  induction ks generalizing s with
  | nil => cases hi
  | cons k ks ih =>
    obtain ⟨hk, hks⟩ := List.forall_mem_cons.1 hks
    obtain ⟨hfresh, hdistinct⟩ := List.nodup_cons.1 hdistinct
    rw [List.foldl_cons] at hsum ⊢
    by_cases hki : k = i
    · subst hki
      have hrest := alike_foldl_of_isVoid
        (fun l hl => hks l hl fun heq => hfresh (heq ▸ hl)) hsum
      rw [hrest.isNaN_eq] at hsum
      exact hrest.trans (hs.add_alike_right hsum)
    · have hi := (List.mem_cons.1 hi).resolve_left (Ne.symm hki)
      exact ih (hs.add (hk hki)) hi hdistinct hks hsum

theorem alike_sumAxes_single (hf : ∀ k, k ≠ i → IsVoid (f k)) (hsum : isNaN (sumAxes f) = false) :
    Alike (sumAxes f) (f i) := by
  have hfold : sumAxes f = [1, 2, 3, 4, 5, 6].foldl (fun t k => t + f k) (f 0) := rfl
  rw [hfold] at hsum ⊢
  by_cases hi : i = 0
  · subst hi
    exact alike_foldl_of_isVoid (fun k hk => hf k (by rintro rfl; simp at hk)) hsum
  · have hmem : ∀ i : Axis, i ≠ 0 → i ∈ [1, 2, 3, 4, 5, 6] := by decide
    exact alike_foldl (hf 0 (Ne.symm hi)) (hmem i hi) (by decide) (fun k _ => hf k) hsum

end PhaseMatrix

end BeamEnvelope
