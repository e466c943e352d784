import BeamEnvelope.Decimal.Ratio
import BeamEnvelope.Proofs.Double.Rounding

/-!
# The parts of a double

A double is its 64 bits, and operations see it taken apart: infinite, not a number, a signed zero,
or a sign with a positive mantissa and an exponent. The mantissa and exponent of a double are
canonical and the exponent fits, and whatever has such parts is a double, so the two views determine
each other.
-/

namespace BeamEnvelope.Double

open Float.Model (Format UnpackedFloat totalExponent)
open Float.Model.UnpackedFloat

def parts (x : Float) : UnpackedFloat := x.toModel.unpack

def ofParts (u : UnpackedFloat) : Float := .ofModel (.pack u)

/-- Whether the parts are those of a double. -/
def Fits : UnpackedFloat → Prop
  | .finite _ m e _ => IsCanonical m e ∧ e ≤ 971
  | _ => True

section Fields

variable (b : BitVec binary64.numBits)

theorem toNat_unpackMantissa : (unpackMantissa b).toNat = b.toNat % 2 ^ 52 := by
  simp [unpackMantissa, BitVec.extractLsb]

theorem toNat_unpackExponent : (unpackExponent b).toNat = b.toNat / 2 ^ 52 % 2 ^ 11 := by
  simp [unpackExponent, BitVec.extractLsb, Nat.shiftRight_eq_div_pow]

theorem toNat_unpackSign : (unpackSign b).toNat = b.toNat / 2 ^ 63 := by
  have hb : b.toNat < 2 ^ 64 := b.isLt
  simp [unpackSign, BitVec.extractLsb, Nat.shiftRight_eq_div_pow]
  omega

theorem toBitVec_ofBitVec (s : BitVec 1) : (Sign.ofBitVec s).toBitVec = s := by
  revert s
  decide

theorem ofBitVec_toBitVec (s : Sign) : Sign.ofBitVec s.toBitVec = s := by
  cases s <;> rfl

theorem toNat_append {m n : ℕ} (v : BitVec m) (w : BitVec n) :
    (v ++ w).toNat = v.toNat * 2 ^ n + w.toNat := by
  rw [BitVec.toNat_append, ← Nat.shiftLeft_add_eq_or_of_lt w.isLt, Nat.shiftLeft_eq]

theorem toNat_packComponents (s : Sign) (e : BitVec 11) (m : BitVec 52) :
    (packComponents binary64 s e m).toNat =
      s.toBitVec.toNat * 2 ^ 63 + e.toNat * 2 ^ 52 + m.toNat := by
  rw [packComponents, toNat_append, toNat_append]
  ring

theorem unpackSign_packComponents (s : Sign) (e : BitVec 11) (m : BitVec 52) :
    unpackSign (packComponents binary64 s e m) = s.toBitVec := by
  have he : e.toNat < 2 ^ 11 := e.isLt
  have hm : m.toNat < 2 ^ 52 := m.isLt
  apply BitVec.eq_of_toNat_eq
  rw [toNat_unpackSign, toNat_packComponents]
  omega

theorem packComponents_unpack :
    packComponents binary64 (Sign.ofBitVec (unpackSign b)) (unpackExponent b) (unpackMantissa b) =
      b := by
  have hb : b.toNat < 2 ^ 64 := b.isLt
  apply BitVec.eq_of_toNat_eq
  rw [toNat_packComponents, toBitVec_ofBitVec, toNat_unpackSign, toNat_unpackExponent,
    toNat_unpackMantissa]
  omega

end Fields

/-- The parts that the sign, the exponent field and the fraction field of a double stand for. -/
def ofFields (s : Sign) (field fraction : ℕ) : UnpackedFloat :=
  if field = 2047 then
    if fraction = 0 then .infinity s else .notANumber
  else if field = 0 then
    if h : fraction = 0 then .zero s else .finite s fraction (-1074) (Nat.pos_of_ne_zero h)
  else .finite s (2 ^ 52 + fraction) (field - 1075) (by positivity)

theorem unpack_eq_ofFields (b : BitVec binary64.numBits) :
    unpack binary64 b =
      ofFields (Sign.ofBitVec (unpackSign b)) (unpackExponent b).toNat (unpackMantissa b).toNat := by
  generalize he : unpackExponent b = e
  generalize hm : unpackMantissa b = m
  have htop : e = -1#11 ↔ e.toNat = 2047 := by
    rw [← BitVec.toNat_inj]
    rfl
  have hzero : e = 0#11 ↔ e.toNat = 0 := by
    rw [← BitVec.toNat_inj]
    rfl
  have hm0 : m = 0#52 ↔ m.toNat = 0 := by
    rw [← BitVec.toNat_inj]
    rfl
  have hbias : ((binary64.exponentBias : ℕ) : ℤ) + ((52 : ℕ) : ℤ) = 1075 := rfl
  simp only [unpack, ofFields, he, hm, htop, hzero, hm0, hbias]
  split_ifs with h1 h2 h3 h4
  · rfl
  · rfl
  · rfl
  · simp [h3]
  · rw [UnpackedFloat.finite.injEq]
    exact ⟨rfl, by rw [toNat_append]; simp, rfl⟩

theorem pack_finite (s : Sign) {m : ℕ} {e : ℤ} (hm : 0 < m) (h : Fits (.finite s m e hm)) :
    UnpackedFloat.pack binary64 (.finite s m e hm) =
      if 2 ^ 52 ≤ m then packComponents binary64 s (BitVec.ofNat 11 (e + 1075).toNat) (BitVec.ofNat 52 m)
      else packComponents binary64 s 0#11 (BitVec.ofNat 52 m) := by
  obtain ⟨hcanonical, hfits⟩ := h
  rw [isCanonical_iff] at hcanonical
  have hbias : (e + binary64.exponentBias + ((52 : ℕ) : ℤ)) = e + 1075 := by
    have : ((binary64.exponentBias : ℕ) : ℤ) = 1023 := rfl
    omega
  have hroom : ¬ 2 ^ 11 ≤ (e + 1075).toNat + 1 := by omega
  have hbits : m.log2 + 1 = binary64.mantissaBits ↔ 2 ^ 52 ≤ m := by
    rw [← Nat.le_log2 hm.ne']
    change m.log2 + 1 = 53 ↔ 52 ≤ m.log2
    omega
  simp only [UnpackedFloat.pack, hbias, hroom, hbits, if_false]

theorem unpack_pack {u : UnpackedFloat} (h : Fits u) :
    unpack binary64 (UnpackedFloat.pack binary64 u) = u := by
  cases u with
  | infinity s =>
    rw [unpack_eq_ofFields, UnpackedFloat.pack, packedInfinity, unpackSign_packComponents,
      unpackExponent_packComponents, unpackMantissa_packComponents, ofBitVec_toBitVec]
    rfl
  | notANumber =>
    rw [unpack_eq_ofFields, UnpackedFloat.pack, packedNaN, unpackSign_packComponents,
      unpackExponent_packComponents, unpackMantissa_packComponents]
    rfl
  | zero s =>
    rw [unpack_eq_ofFields, UnpackedFloat.pack, packedZero, unpackSign_packComponents,
      unpackExponent_packComponents, unpackMantissa_packComponents, ofBitVec_toBitVec]
    rfl
  | finite s m e hm =>
    have hcanonical := isCanonical_iff.1 h.1
    have hle : e ≤ 971 := h.2
    have hlow : 2 ^ m.log2 ≤ m := Nat.log2_self_le hm.ne'
    have hhigh : m < 2 ^ 53 := (Nat.log2_lt hm.ne').1 (by omega)
    rw [pack_finite s hm h]
    -- a normal number leaves its leading bit out of the fraction field, a subnormal one has none
    split_ifs with hnormal
    · have he : (BitVec.ofNat 11 (e + 1075).toNat).toNat = (e + 1075).toNat := by
        rw [BitVec.toNat_ofNat]
        omega
      have hf : (BitVec.ofNat 52 m).toNat = m - 2 ^ 52 := by
        rw [BitVec.toNat_ofNat]
        omega
      rw [unpack_eq_ofFields, unpackSign_packComponents, unpackExponent_packComponents,
        unpackMantissa_packComponents, ofBitVec_toBitVec, he, hf, ofFields, if_neg (by omega),
        if_neg (by omega), UnpackedFloat.finite.injEq]
      exact ⟨rfl, by omega, by omega⟩
    · have hlog : m.log2 < 52 := (Nat.log2_lt hm.ne').2 (by omega)
      have hf : (BitVec.ofNat 52 m).toNat = m := by
        rw [BitVec.toNat_ofNat]
        omega
      rw [unpack_eq_ofFields, unpackSign_packComponents, unpackExponent_packComponents,
        unpackMantissa_packComponents, ofBitVec_toBitVec, hf, ofFields, if_neg (by decide),
        if_pos (by rfl), dif_neg hm.ne', UnpackedFloat.finite.injEq]
      exact ⟨rfl, rfl, by omega⟩

theorem fits_ofFields (s : Sign) {field fraction : ℕ} (hfield : field < 2 ^ 11)
    (hfraction : fraction < 2 ^ 52) : Fits (ofFields s field fraction) := by
  rw [ofFields]
  split_ifs with h1 h2 h3 h4
  · trivial
  · trivial
  · trivial
  · have hlog : fraction.log2 < 52 := (Nat.log2_lt h4).2 hfraction
    exact ⟨isCanonical_iff.2 (by omega), by decide⟩
  · have hlog : (2 ^ 52 + fraction).log2 = 52 := (Nat.log2_eq_iff (by omega)).2 (by omega)
    exact ⟨isCanonical_iff.2 (by omega), by omega⟩

theorem fits_parts (x : Float) : Fits (parts x) := by
  change Fits (unpack binary64 x.toModel.toBits.toBitVec)
  rw [unpack_eq_ofFields]
  exact fits_ofFields _ (BitVec.isLt _) (BitVec.isLt _)

theorem parts_ofParts {u : UnpackedFloat} (h : Fits u) : parts (ofParts u) = u :=
  unpack_pack h

theorem pack_unpack {b : BitVec binary64.numBits} (h : binary64.Valid b) :
    UnpackedFloat.pack binary64 (unpack binary64 b) = b := by
  have hb := packComponents_unpack b
  have hnan := h.eq_packedNaN
  have hfits := fits_ofFields (Sign.ofBitVec (unpackSign b)) (unpackExponent b).isLt
    (unpackMantissa b).isLt
  have hf : (unpackMantissa b).toNat < 2 ^ 52 := (unpackMantissa b).isLt
  have hk : (unpackExponent b).toNat < 2 ^ 11 := (unpackExponent b).isLt
  rw [unpack_eq_ofFields]
  generalize Sign.ofBitVec (unpackSign b) = s at *
  generalize unpackExponent b = e at *
  generalize unpackMantissa b = m at *
  rw [ofFields] at hfits ⊢
  split_ifs at hfits ⊢ with h1 h2 h3 h4
  · rw [← hb, show e = -1#11 from BitVec.eq_of_toNat_eq h1,
      show m = 0#52 from BitVec.eq_of_toNat_eq h2]
    rfl
  · refine (hnan (BitVec.eq_of_toNat_eq h1) fun hm => h2 ?_).symm
    rw [hm]
    rfl
  · rw [← hb, show e = 0#11 from BitVec.eq_of_toNat_eq h3,
      show m = 0#52 from BitVec.eq_of_toNat_eq h4]
    rfl
  · rw [pack_finite s _ hfits, if_neg (by omega), ← hb, BitVec.ofNat_toNat, BitVec.setWidth_eq,
      show e = 0#11 from BitVec.eq_of_toNat_eq h3]
  · have hexponent : ((e.toNat : ℤ) - 1075 + 1075).toNat = e.toNat := by omega
    have hmantissa : BitVec.ofNat 52 (2 ^ 52 + m.toNat) = m := by
      apply BitVec.eq_of_toNat_eq
      rw [BitVec.toNat_ofNat]
      omega
    rw [pack_finite s _ hfits, if_pos (by omega), hexponent, hmantissa, BitVec.ofNat_toNat,
      BitVec.setWidth_eq, hb]

theorem ofParts_parts (x : Float) : ofParts (parts x) = x := by
  obtain ⟨⟨bits, hvalid⟩⟩ := x
  simp only [ofParts, parts, Float.Model.pack, Float.Model.unpack]
  congr 2
  rw [pack_unpack hvalid]

theorem ext_parts {x y : Float} (h : parts x = parts y) : x = y := by
  rw [← ofParts_parts x, h, ofParts_parts]

theorem parts_eq_ofFields (x : Float) :
    parts x = ofFields (Sign.ofBitVec (@unpackSign binary64 x.toBits.toBitVec))
      (x.toBits.toNat / 2 ^ 52 % 2 ^ 11) (x.toBits.toNat % 2 ^ 52) := by
  rw [← UInt64.toNat_toBitVec, ← toNat_unpackExponent, ← toNat_unpackMantissa]
  exact unpack_eq_ofFields _

/-- The sign of what is not a number is taken to be positive. -/
def sign : UnpackedFloat → Sign
  | .infinity s | .zero s | .finite s _ _ _ => s
  | .notANumber => .positive

theorem sign_ofFields {s : Sign} {field fraction : ℕ} (h : (ofFields s field fraction).isFinite) :
    sign (ofFields s field fraction) = s := by
  rw [ofFields] at h ⊢
  split_ifs at h ⊢ with h1 h2 h3 h4
  all_goals first | rfl | exact absurd h Bool.false_ne_true

/-- The sign of a double is its highest bit. -/
theorem sign_parts_eq_positive {x : Float} (h : x.isFinite) :
    sign (parts x) = .positive ↔ x.toBits < 0x8000000000000000 := by
  have hlt : x.toBits.toNat < 2 ^ 64 := x.toBits.toNat_lt
  change (parts x).isFinite = true at h
  rw [parts_eq_ofFields] at h ⊢
  rw [sign_ofFields h, UInt64.lt_iff_toNat_lt]
  have hsign : @unpackSign binary64 x.toBits.toBitVec = 0#1 ↔ x.toBits.toNat < 2 ^ 63 := by
    rw [← BitVec.toNat_inj, toNat_unpackSign, UInt64.toNat_toBitVec]
    change x.toBits.toNat / 2 ^ 63 = 0 ↔ _
    omega
  change _ ↔ x.toBits.toNat < 2 ^ 63
  rw [← hsign, Sign.ofBitVec]
  split_ifs with h0
  · exact iff_of_true rfl h0
  · exact iff_of_false (fun h => by cases h) h0

theorem unpackSign_pack (u : UnpackedFloat) :
    unpackSign (UnpackedFloat.pack binary64 u) = (sign u).toBitVec := by
  cases u with
  | infinity s => exact unpackSign_packComponents s _ _
  | notANumber => exact unpackSign_packComponents .positive _ _
  | zero s => exact unpackSign_packComponents s _ _
  | finite s m e hm =>
    simp only [UnpackedFloat.pack]
    split_ifs
    all_goals exact unpackSign_packComponents s _ _

theorem sign_parts_ofParts {u : UnpackedFloat} (h : sign u = .positive) :
    sign (parts (ofParts u)) = .positive := by
  change sign (unpack binary64 (UnpackedFloat.pack binary64 u)) = _
  rw [unpack_eq_ofFields, unpackSign_pack, ofBitVec_toBitVec, h, ofFields]
  split_ifs <;> rfl

/-- A mantissa whose exponent is too large for a double is infinite. -/
theorem ofParts_of_lt {s : Sign} {m : ℕ} {e : ℤ} (hm : 0 < m) (h : 971 < e) :
    ofParts (.finite s m e hm) = ofParts (.infinity s) := by
  have hbias : e + binary64.exponentBias + ((52 : ℕ) : ℤ) = e + 1075 := by
    have : ((binary64.exponentBias : ℕ) : ℤ) = 1023 := rfl
    omega
  have hover : 2 ^ 11 ≤ (e + 1075).toNat + 1 := by omega
  have hpack : UnpackedFloat.pack binary64 (.finite s m e hm) =
      UnpackedFloat.pack binary64 (.infinity s) := by
    simp only [UnpackedFloat.pack, hbias, hover, if_true]
  simp only [ofParts, Float.Model.pack, hpack]

theorem parts_neg (x : Float) : parts (-x) = (parts x).neg := by
  refine parts_ofParts (u := (parts x).neg) ?_
  have h := fits_parts x
  generalize parts x = u at h ⊢
  cases u <;> exact h

theorem parts_abs (x : Float) : parts x.abs = (parts x).abs := by
  refine parts_ofParts (u := (parts x).abs) ?_
  have h := fits_parts x
  generalize parts x = u at h ⊢
  cases u <;> exact h

theorem isFinite_neg (x : Float) : (-x).isFinite = x.isFinite := by
  change (parts (-x)).isFinite = (parts x).isFinite
  rw [parts_neg]
  cases parts x <;> rfl

theorem isFinite_abs (x : Float) : x.abs.isFinite = x.isFinite := by
  change (parts x.abs).isFinite = (parts x).isFinite
  rw [parts_abs]
  cases parts x <;> rfl

theorem abs_of_sign_positive {x : Float} (h : sign (parts x) = .positive) : x.abs = x := by
  apply ext_parts
  rw [parts_abs]
  generalize parts x = u at h ⊢
  cases u <;> cases h <;> rfl

theorem neg_abs_of_sign_negative {x : Float} (h : sign (parts x) = .negative) : -x.abs = x := by
  apply ext_parts
  rw [parts_neg, parts_abs]
  generalize parts x = u at h ⊢
  cases u <;> cases h <;> rfl

protected theorem abs_neg (x : Float) : (-x).abs = x.abs := by
  apply ext_parts
  rw [parts_abs, parts_neg, parts_abs]
  cases parts x <;> rfl

theorem sign_parts_neg {x : Float} (hx : x.isFinite = true) (h : sign (parts x) = .positive) :
    sign (parts (-x)) = .negative := by
  change (parts x).isFinite = true at hx
  rw [parts_neg]
  generalize parts x = u at h hx ⊢
  cases u <;> cases h <;> first | rfl | cases hx

end BeamEnvelope.Double
