import BeamEnvelope.Proofs.Decimal.Nearest
import BeamEnvelope.Proofs.Optics.SignedZeros

/-!
# Beam dynamics over doubles

Doubles have signed zeros. Their arithmetic is that of their parts; the elementary functions come
from a library, of which no more is used than that a cosine does not see the sign of zero and gives
no number where it is given none.
-/

namespace BeamEnvelope

open Float.Model (UnpackedFloat)
open Float.Model.UnpackedFloat
open Double

/-- A library of elementary functions on doubles. -/
structure Elementary where
  sin : Float → Float
  cos : Float → Float
  tan : Float → Float
  sinh : Float → Float
  cosh : Float → Float

namespace Elementary

/-- Doubles with the elementary functions of a library. -/
@[reducible]
def scalar (lib : Elementary) : Scalar Float :=
  { (inferInstance : Scalar Float) with
    sin := lib.sin
    cos := lib.cos
    tan := lib.tan
    sinh := lib.sinh
    cosh := lib.cosh }

-- the library that programs are linked with gives the doubles that they run on
example : scalar ⟨Float.sin, Float.cos, Float.tan, Float.sinh, Float.cosh⟩ =
    (inferInstance : Scalar Float) := rfl

/-- What is documented of every cosine. -/
structure IsDocumented (lib : Elementary) : Prop where
  cos_neg_zero : lib.cos (-0.0) = lib.cos 0.0
  cos_isNaN (x : Float) : x.isNaN → (lib.cos x).isNaN

/-- Elementary functions that are right at zero. -/
def atZero : Elementary where
  sin x := x
  cos x := if x.isNaN then x else 1.0
  tan x := x
  sinh x := x
  cosh x := if x.isNaN then x else 1.0

theorem isDocumented_atZero : atZero.IsDocumented where
  cos_neg_zero := by decide +kernel
  cos_isNaN x h := by
    have hcos : atZero.cos x = x := if_pos h
    rwa [hcos]

end Elementary

namespace Double

variable {x y : Float} {s t : Sign} {u v : UnpackedFloat}

theorem parts_zero : parts 0.0 = .zero .positive := rfl

theorem beq_iff_compare : (x == y) = true ↔ (parts x).compare (parts y) = some .eq := by
  change ((parts x).compare (parts y) == some .eq) = true ↔ _
  exact beq_iff_eq

theorem compare_self : u.compare u = some .eq ↔ u ≠ .notANumber := by
  cases u with
  | infinity s => cases s <;> exact ⟨fun _ => UnpackedFloat.noConfusion, fun _ => rfl⟩
  | finite s m e hm => cases s <;> simp [UnpackedFloat.compare]
  | zero s => simp [UnpackedFloat.compare]
  | notANumber => simp [UnpackedFloat.compare]

theorem compare_zero : u.compare (.zero s) = some .eq ↔ ∃ t, u = .zero t := by
  cases u with
  | infinity s => cases s <;> simp [UnpackedFloat.compare]
  | finite s m e hm => cases s <;> simp [UnpackedFloat.compare]
  | zero s => simp [UnpackedFloat.compare]
  | notANumber => simp [UnpackedFloat.compare]

def VoidParts (u : UnpackedFloat) : Prop := (∃ s, u = .zero s) ∨ u = .notANumber

/-- Parts that are equal up to the sign of zero. -/
def AlikeParts (u v : UnpackedFloat) : Prop := u = v ∨ (∃ s, u = .zero s) ∧ ∃ s, v = .zero s

/-- What compares equal is equal but for the sign of zero. -/
theorem alikeParts_of_compare (h : u.compare v = some .eq) : AlikeParts u v := by
  cases u with
  | notANumber => simp [UnpackedFloat.compare] at h
  | zero s =>
    refine .inr ⟨⟨s, rfl⟩, ?_⟩
    cases v with
    | zero t => exact ⟨t, rfl⟩
    | infinity t => cases t <;> cases h
    | finite t n f hn => cases t <;> cases h
    | notANumber => cases h
  | infinity s =>
    cases v with
    | infinity t => cases s <;> cases t <;> first | exact .inl rfl | cases h
    | zero t => cases s <;> cases h
    | finite t n f hn => cases s <;> cases h
    | notANumber => cases s <;> cases h
  | finite s m e hm =>
    cases v with
    | finite t n f hn =>
      refine .inl ?_
      cases s <;> cases t <;> simp [UnpackedFloat.compare, Ordering.then_eq_eq] at h ⊢ <;> omega
    | zero t => cases s <;> cases h
    | infinity t => cases s <;> cases t <;> cases h
    | notANumber => cases s <;> cases h

theorem alikeParts_zero_add (s : Sign) (u : UnpackedFloat) :
    AlikeParts (UnpackedFloat.add binary64 (.zero s) u) u := by
  cases u with
  | zero t => exact .inr ⟨by cases s <;> cases t <;> exact ⟨_, rfl⟩, t, rfl⟩
  | infinity t => exact .inl rfl
  | finite t m e hm => exact .inl rfl
  | notANumber => exact .inl rfl

theorem alikeParts_add_zero (s : Sign) (u : UnpackedFloat) :
    AlikeParts (UnpackedFloat.add binary64 u (.zero s)) u := by
  cases u with
  | zero t => exact .inr ⟨by cases s <;> cases t <;> exact ⟨_, rfl⟩, t, rfl⟩
  | infinity t => exact .inl rfl
  | finite t m e hm => exact .inl rfl
  | notANumber => exact .inl rfl

theorem alikeParts_zero_sub (s t : Sign) (u : UnpackedFloat) :
    AlikeParts (UnpackedFloat.sub binary64 (.zero s) u)
      (UnpackedFloat.sub binary64 (.zero t) u) := by
  cases u with
  | zero r =>
    exact .inr
      ⟨by cases s <;> cases r <;> exact ⟨_, rfl⟩, by cases t <;> cases r <;> exact ⟨_, rfl⟩⟩
  | infinity r => exact .inl rfl
  | finite r m e hm => exact .inl rfl
  | notANumber => exact .inl rfl

theorem alikeParts_sub_zero (s : Sign) (u : UnpackedFloat) :
    AlikeParts (UnpackedFloat.sub binary64 u (.zero s)) u := by
  cases u with
  | zero t => exact .inr ⟨by cases s <;> cases t <;> exact ⟨_, rfl⟩, t, rfl⟩
  | infinity t => exact .inl rfl
  | finite t m e hm => exact .inl rfl
  | notANumber => exact .inl rfl

theorem voidParts_sub_self (u : UnpackedFloat) : VoidParts (UnpackedFloat.sub binary64 u u) := by
  cases u with
  | zero s => exact .inl (by cases s <;> exact ⟨_, rfl⟩)
  | infinity s => exact .inr (by cases s <;> rfl)
  | finite s m e hm =>
    refine .inl ⟨.positive, ?_⟩
    simp only [UnpackedFloat.sub, Int.sub_self, UnpackedFloat.normalize]
    rfl
  | notANumber => exact .inr rfl

/-- A product with zero is zero, but no number if the other factor is infinite. -/
theorem mul_zero_parts (u : UnpackedFloat) :
    (∀ s, ∃ t, UnpackedFloat.mul binary64 (.zero s) u = .zero t ∧
      UnpackedFloat.mul binary64 u (.zero s) = .zero t) ∨
    ∀ s, UnpackedFloat.mul binary64 (.zero s) u = .notANumber ∧
      UnpackedFloat.mul binary64 u (.zero s) = .notANumber := by
  cases u with
  | zero t => exact .inl fun s => ⟨s * t, rfl, by cases s <;> cases t <;> rfl⟩
  | infinity t => exact .inr fun s => ⟨rfl, rfl⟩
  | finite t m e hm => exact .inl fun s => ⟨s * t, rfl, by cases s <;> cases t <;> rfl⟩
  | notANumber => exact .inr fun s => ⟨rfl, rfl⟩

theorem voidParts_zero_mul (s : Sign) (u : UnpackedFloat) :
    VoidParts (UnpackedFloat.mul binary64 (.zero s) u) :=
  (mul_zero_parts u).imp (fun h => (h s).imp fun _ => And.left) fun h => (h s).1

theorem voidParts_mul_zero (s : Sign) (u : UnpackedFloat) :
    VoidParts (UnpackedFloat.mul binary64 u (.zero s)) :=
  (mul_zero_parts u).imp (fun h => (h s).imp fun _ => And.right) fun h => (h s).2

theorem alikeParts_zero_mul (s t : Sign) (u : UnpackedFloat) :
    AlikeParts (UnpackedFloat.mul binary64 (.zero s) u)
      (UnpackedFloat.mul binary64 (.zero t) u) := by
  rcases mul_zero_parts u with h | h
  · exact .inr ⟨(h s).imp fun _ => And.left, (h t).imp fun _ => And.left⟩
  · exact .inl ((h s).1.trans (h t).1.symm)

theorem alikeParts_mul_zero (s t : Sign) (u : UnpackedFloat) :
    AlikeParts (UnpackedFloat.mul binary64 u (.zero s))
      (UnpackedFloat.mul binary64 u (.zero t)) := by
  rcases mul_zero_parts u with h | h
  · exact .inr ⟨(h s).imp fun _ => And.right, (h t).imp fun _ => And.right⟩
  · exact .inl ((h s).2.trans (h t).2.symm)

/-- A quotient of zero is zero, but no number if the divisor is zero as well. -/
theorem zero_div_parts (u : UnpackedFloat) :
    (∀ s, ∃ t, UnpackedFloat.div binary64 (.zero s) u = .zero t) ∨
      ∀ s, UnpackedFloat.div binary64 (.zero s) u = .notANumber := by
  cases u with
  | zero t => exact .inr fun s => rfl
  | infinity t => exact .inl fun s => ⟨s / t, rfl⟩
  | finite t m e hm => exact .inl fun s => ⟨s / t, rfl⟩
  | notANumber => exact .inr fun s => rfl

theorem voidParts_zero_div (s : Sign) (u : UnpackedFloat) :
    VoidParts (UnpackedFloat.div binary64 (.zero s) u) :=
  (zero_div_parts u).imp (fun h => h s) fun h => h s

theorem alikeParts_zero_div (s t : Sign) (u : UnpackedFloat) :
    AlikeParts (UnpackedFloat.div binary64 (.zero s) u)
      (UnpackedFloat.div binary64 (.zero t) u) := by
  rcases zero_div_parts u with h | h
  · exact .inr ⟨h s, h t⟩
  · exact .inl ((h s).trans (h t).symm)

theorem one_mul_parts (h : Fits u) :
    UnpackedFloat.mul binary64 (parts 1.0) u = u ∧
      UnpackedFloat.mul binary64 u (parts 1.0) = u := by
  have hone : parts 1.0 = .finite .positive (2 ^ 52) (-52) (by decide) := rfl
  rw [hone]
  cases u with
  | zero s => cases s <;> exact ⟨rfl, rfl⟩
  | infinity s => cases s <;> exact ⟨rfl, rfl⟩
  | notANumber => exact ⟨rfl, rfl⟩
  | finite s m e hm =>
    have hvalue : ((2 ^ 52 * m : ℕ) : ℚ) * 2 ^ (-52 + e) = m * 2 ^ e := by
      rw [zpow_add₀ two_ne_zero]
      push_cast
      field_simp
      norm_num
    have hround :
        roundWithAccuracy binary64 s (2 ^ 52 * m) (-52 + e) .exact = .finite s m e hm := by
      have hplace : -52 + e ≤ lastPlace (((2 ^ 52 * m : ℕ) : ℚ) * 2 ^ (-52 + e)) := by
        rw [hvalue, h.1.lastPlace_eq hm]
        omega
      rw [roundWithAccuracy_exact s (by positivity) hplace, hvalue, nearest_of_isCanonical s hm h.1]
    have hsign : Sign.positive * s = s ∧ s * Sign.positive = s := by cases s <;> exact ⟨rfl, rfl⟩
    simp only [UnpackedFloat.mul, hsign.1, hsign.2]
    rw [Nat.mul_comm m, Int.add_comm e]
    exact ⟨hround, hround⟩

theorem add_notANumber (u : UnpackedFloat) :
    UnpackedFloat.add binary64 u .notANumber = .notANumber := by
  cases u <;> rfl

theorem mul_notANumber (u : UnpackedFloat) :
    UnpackedFloat.mul binary64 u .notANumber = .notANumber := by
  cases u <;> rfl

end Double

namespace Elementary

open Scalar

variable (lib : Elementary) {a b x : Float} {u v : UnpackedFloat}

theorem isZero_scalar : @isZero Float lib.scalar x = true ↔ ∃ s, parts x = .zero s := by
  rw [← compare_zero (s := .positive), ← parts_zero]
  exact beq_iff_compare

theorem isNaN_scalar : @isNaN Float lib.scalar x = true ↔ parts x = .notANumber := by
  have hself : (x == x) = true ↔ parts x ≠ .notANumber := beq_iff_compare.trans compare_self
  change (!(x == x)) = true ↔ _
  rw [Bool.not_eq_true', ← Bool.not_eq_true, hself, ne_eq, not_not]

theorem isVoid_ofParts (h : VoidParts u) : @IsVoid Float lib.scalar (ofParts u) := by
  rcases h with ⟨s, rfl⟩ | rfl
  · have hfits : Fits (.zero s) := trivial
    exact .inl (lib.isZero_scalar.2 ⟨s, parts_ofParts hfits⟩)
  · have hfits : Fits .notANumber := trivial
    exact .inr (lib.isNaN_scalar.2 (parts_ofParts hfits))

theorem alike_ofParts (h : AlikeParts u v) : @Alike Float lib.scalar (ofParts u) (ofParts v) := by
  rcases h with rfl | ⟨⟨s, rfl⟩, t, rfl⟩
  · exact .inl rfl
  · have hs : Fits (.zero s) := trivial
    have ht : Fits (.zero t) := trivial
    exact .inr
      ⟨lib.isZero_scalar.2 ⟨s, parts_ofParts hs⟩, lib.isZero_scalar.2 ⟨t, parts_ofParts ht⟩⟩

section Operation

-- an operation on parts, which sees nothing of a zero but its sign
variable {f : UnpackedFloat → UnpackedFloat}

theorem alike_of_isZero (h : ∀ s, AlikeParts (f (.zero s)) (parts x))
    (ha : @isZero Float lib.scalar a = true) :
    @Alike Float lib.scalar (ofParts (f (parts a))) x := by
  obtain ⟨s, ha⟩ := lib.isZero_scalar.1 ha
  have hzero := lib.alike_ofParts (h s)
  rwa [← ha, ofParts_parts] at hzero

theorem alike_of_isZero_of_isZero (h : ∀ s t, AlikeParts (f (.zero s)) (f (.zero t)))
    (ha : @isZero Float lib.scalar a = true) (hb : @isZero Float lib.scalar b = true) :
    @Alike Float lib.scalar (ofParts (f (parts a))) (ofParts (f (parts b))) := by
  obtain ⟨s, ha⟩ := lib.isZero_scalar.1 ha
  obtain ⟨t, hb⟩ := lib.isZero_scalar.1 hb
  rw [ha, hb]
  exact lib.alike_ofParts (h s t)

theorem isVoid_of_isZero (h : ∀ s, VoidParts (f (.zero s)))
    (ha : @isZero Float lib.scalar a = true) :
    @IsVoid Float lib.scalar (ofParts (f (parts a))) := by
  obtain ⟨s, ha⟩ := lib.isZero_scalar.1 ha
  rw [ha]
  exact lib.isVoid_ofParts (h s)

theorem isNaN_of_isNaN (h : f .notANumber = .notANumber)
    (ha : @isNaN Float lib.scalar a = true) :
    @isNaN Float lib.scalar (ofParts (f (parts a))) = true := by
  have hfits : Fits .notANumber := trivial
  rw [lib.isNaN_scalar.1 ha, h]
  exact lib.isNaN_scalar.2 (parts_ofParts hfits)

end Operation

variable {lib}

theorem IsDocumented.cos_of_isZero (hlib : lib.IsDocumented)
    (ha : @isZero Float lib.scalar a = true) : lib.cos a = lib.cos 0.0 := by
  obtain ⟨s, ha⟩ := lib.isZero_scalar.1 ha
  cases s with
  | positive => rw [ext_parts (ha.trans parts_zero.symm)]
  | negative =>
    have hneg : parts (-0.0) = .zero .negative := rfl
    rw [ext_parts (ha.trans hneg.symm), hlib.cos_neg_zero]

theorem IsDocumented.isNaN_cos (hlib : lib.IsDocumented)
    (ha : @isNaN Float lib.scalar a = true) :
    @isNaN Float lib.scalar (lib.cos a) = true := by
  have hisNaN {a : Float} : a.isNaN ↔ parts a = .notANumber := by
    change (parts a).isNaN = true ↔ _
    cases parts a <;> simp [UnpackedFloat.isNaN]
  exact lib.isNaN_scalar.2 (hisNaN.1 (hlib.cos_isNaN a (hisNaN.2 (lib.isNaN_scalar.1 ha))))

/-- Doubles have signed zeros, whatever their elementary functions return. -/
theorem IsDocumented.signedZeros (hlib : lib.IsDocumented) : @SignedZeros Float lib.scalar :=
  letI := lib.scalar
  { isZero_zero := lib.isZero_scalar.2 ⟨.positive, parts_zero⟩
    eq_of_isZero := fun {a b} ha hb => by
      obtain ⟨s, ha⟩ := lib.isZero_scalar.1 ha
      obtain ⟨t, hb⟩ := lib.isZero_scalar.1 hb
      refine beq_iff_compare.2 ?_
      rw [ha, hb]
      rfl
    alike_of_eq := fun {a b} h => by
      rcases alikeParts_of_compare (beq_iff_compare.1 h) with heq | ⟨ha, hb⟩
      · exact .inl (ext_parts heq)
      · exact .inr ⟨lib.isZero_scalar.2 ha, lib.isZero_scalar.2 hb⟩
    isZero_eq_false_of_isPositive := fun {a} ha => by
      refine Bool.eq_false_iff.2 fun hzero => ?_
      obtain ⟨s, hzero⟩ := lib.isZero_scalar.1 hzero
      have hlt : Float.lt 0.0 a = true := of_decide_eq_true ha
      rw [Float.lt, decide_eq_true_iff] at hlt
      change ((parts 0.0).compare (parts a) == some .lt) = true at hlt
      rw [hzero] at hlt
      cases hlt
    zero_add := fun x => lib.alike_of_isZero (f := fun u => .add binary64 u (parts x))
      fun s => alikeParts_zero_add s _
    add_zero := fun x => lib.alike_of_isZero (f := .add binary64 (parts x))
      fun s => alikeParts_add_zero s _
    zero_sub := fun x => lib.alike_of_isZero_of_isZero (f := fun u => .sub binary64 u (parts x))
      fun s t => alikeParts_zero_sub s t _
    sub_zero := fun x => lib.alike_of_isZero (f := .sub binary64 (parts x))
      fun s => alikeParts_sub_zero s _
    isVoid_sub_self := fun x => lib.isVoid_ofParts (voidParts_sub_self (parts x))
    isVoid_zero_mul := fun x => lib.isVoid_of_isZero (f := fun u => .mul binary64 u (parts x))
      fun s => voidParts_zero_mul s _
    isVoid_mul_zero := fun x => lib.isVoid_of_isZero (f := .mul binary64 (parts x))
      fun s => voidParts_mul_zero s _
    isVoid_zero_div := fun x => lib.isVoid_of_isZero (f := fun u => .div binary64 u (parts x))
      fun s => voidParts_zero_div s _
    zero_mul := fun x => lib.alike_of_isZero_of_isZero (f := fun u => .mul binary64 u (parts x))
      fun s t => alikeParts_zero_mul s t _
    mul_zero := fun x => lib.alike_of_isZero_of_isZero (f := .mul binary64 (parts x))
      fun s t => alikeParts_mul_zero s t _
    zero_div := fun x => lib.alike_of_isZero_of_isZero (f := fun u => .div binary64 u (parts x))
      fun s t => alikeParts_zero_div s t _
    one_mul := fun x => (congrArg ofParts (one_mul_parts (fits_parts x)).1).trans (ofParts_parts x)
    mul_one := fun x => (congrArg ofParts (one_mul_parts (fits_parts x)).2).trans (ofParts_parts x)
    isNaN_add_left := fun x => lib.isNaN_of_isNaN (f := fun u => .add binary64 u (parts x)) rfl
    isNaN_add_right := fun x => lib.isNaN_of_isNaN (f := .add binary64 (parts x)) (add_notANumber _)
    isNaN_sub_left := fun x => lib.isNaN_of_isNaN (f := fun u => .sub binary64 u (parts x)) rfl
    isNaN_mul_left := fun x => lib.isNaN_of_isNaN (f := fun u => .mul binary64 u (parts x)) rfl
    isNaN_mul_right := fun x => lib.isNaN_of_isNaN (f := .mul binary64 (parts x)) (mul_notANumber _)
    isNaN_div_left := fun x => lib.isNaN_of_isNaN (f := fun u => .div binary64 u (parts x)) rfl
    cos_eq_of_isZero := fun ha hb => (hlib.cos_of_isZero ha).trans (hlib.cos_of_isZero hb).symm
    isNaN_cos := fun ha => hlib.isNaN_cos ha }

end Elementary

end BeamEnvelope
