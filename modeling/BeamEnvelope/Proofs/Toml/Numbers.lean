import BeamEnvelope.Lattice.Toml
import BeamEnvelope.Proofs.Decimal.Numeral

/-!
# Numbers are read back

A number is written with a point between two rows of digits, the first without a superfluous zero,
or as a name if it is infinite. So it is neither a boolean nor an integer, and the float that is
read is the number itself, down to the sign of a zero.
-/

namespace BeamEnvelope.Toml

open Decimal
open Float.Model (UnpackedFloat)

variable {ds cs : List Char} {x : Float}

theorem underscoresFit_digits {isDigit : Char → Bool} (hds : ∀ c ∈ ds, c.isDigit) (behind : Bool) :
    underscoresFit isDigit behind ds = true := by
  induction ds generalizing behind with
  | nil => rfl
  | cons d ds ih =>
    have hd : d ≠ '_' := ne_of_isDigit (hds d List.mem_cons_self) rfl
    rw [underscoresFit]
    · exact ih (fun c hc => hds c (List.mem_cons_of_mem d hc)) _
    · exact hd

theorem plainDigits?_digits (hne : ds ≠ []) (hds : ∀ c ∈ ds, c.isDigit) :
    plainDigits? Char.isDigit ds = some ds := by
  have hfilter : ds.filter (· != '_') = ds :=
    List.filter_eq_self.2 fun c hc => bne_iff_ne.2 (ne_of_isDigit (hds c hc) rfl)
  have hall : ds.all Char.isDigit = true := List.all_eq_true.2 hds
  rw [plainDigits?, hfilter]
  simp [hne, hall, underscoresFit_digits hds]

theorem wholeDigits?_digits (hne : ds ≠ []) (hds : ∀ c ∈ ds, c.isDigit)
    (hzero : ds.head? = some '0' → ds.length = 1) : wholeDigits? ds = some ds := by
  rw [wholeDigits?, plainDigits?_digits hne hds]
  by_cases hhead : ds.head? = some '0'
  · simp [hzero hhead]
  · simp [hhead]

/-- With a point among them they are no row of digits. -/
theorem wholeDigits?_of_mem (h : '.' ∈ cs) : wholeDigits? cs = none := by
  have hall : (cs.filter (· != '_')).all Char.isDigit = false := by
    rw [List.all_eq_false]
    exact ⟨'.', List.mem_filter.2 ⟨h, rfl⟩, by decide⟩
  simp [wholeDigits?, plainDigits?, hall]

def minus (negative : Bool) : List Char := if negative then ['-'] else []

section Pointed

variable {n : Numeral} (hn : n.IsPlain) (hfraction : n.fraction ≠ []) (negative : Bool)
include hn hfraction

/-- Two rows of digits around a point. -/
theorem chars_of_isPlain : n.chars = n.whole ++ '.' :: n.fraction := by
  simp [Numeral.chars, Numeral.fractionChars, Numeral.exponentChars, hn.exponent, hfraction]

theorem splitSign_pointed : splitSign (minus negative ++ n.chars) = (negative, n.chars) := by
  cases negative with
  | true => rfl
  | false =>
    rw [chars_of_isPlain hn hfraction]
    obtain ⟨d, ds, hwhole⟩ := List.exists_cons_of_ne_nil n.whole_ne_nil
    have hd := n.isDigit_of_mem_whole d (by simp [hwhole])
    have hminus : d ≠ '-' := ne_of_isDigit hd rfl
    have hplus : d ≠ '+' := ne_of_isDigit hd rfl
    simp [minus, hwhole, splitSign, hminus, hplus]

theorem mem_pointed {c : Char} (hc : c ∈ minus negative ++ n.chars) :
    c.isDigit ∨ c = '-' ∨ c = '.' := by
  rw [chars_of_isPlain hn hfraction, List.mem_append, List.mem_append, List.mem_cons] at hc
  rcases hc with hc | hc | rfl | hc
  · cases negative with
    | false => cases hc
    | true => exact .inr (.inl (List.mem_singleton.1 hc))
  · exact .inl (n.isDigit_of_mem_whole c hc)
  · exact .inr (.inr rfl)
  · exact .inl (n.isDigit_of_mem_fraction c hc)

theorem integer?_pointed : integer? (minus negative ++ n.chars) = none := by
  have hchars := chars_of_isPlain hn hfraction
  have hradix {c : Char} (hdigit : c.isDigit = false) (hminus : c ≠ '-') (hdot : c ≠ '.')
      (rest : List Char) : minus negative ++ n.chars ≠ '0' :: c :: rest := by
    intro h
    have hc : c ∈ minus negative ++ n.chars := by simp [h]
    rcases mem_pointed hn hfraction negative hc with hc | hc | hc
    · exact absurd hc (by simp [hdigit])
    · exact hminus hc
    · exact hdot hc
  have hwhole : wholeDigits? n.chars = none := wholeDigits?_of_mem (by simp [hchars])
  have hloose : isLooseInteger n.chars = false := by
    have hbehind : n.chars.dropWhile Char.isDigit = '.' :: n.fraction := by
      rw [hchars]
      exact (span_digits n.isDigit_of_mem_whole (by simp)).2
    simp [isLooseInteger, hbehind]
  rw [integer?]
  · rw [splitSign_pointed hn hfraction]
    simp [hwhole, hloose]
  all_goals exact fun rest h => hradix (by decide) (by decide) (by decide) rest h

theorem float?_pointed (hfinite : n.decimal.toFloat.isFinite) :
    float? (minus negative ++ n.chars) =
      some (.float (if negative then -n.decimal.toFloat else n.decimal.toFloat)) := by
  have hchars := chars_of_isPlain hn hfraction
  have hname {name : List Char} (h : '.' ∉ name) : n.chars ≠ name := by
    rintro rfl
    exact h (by simp [hchars])
  have hmantissa {ds : List Char} (hds : ∀ c ∈ ds, c.isDigit) :
      ∀ c ∈ ds, (c.isDigit || c == '_') = true := fun c hc => by simp [hds c hc]
  have hwhole := hmantissa n.isDigit_of_mem_whole
  have hfractional := hmantissa n.isDigit_of_mem_fraction
  have htake : n.chars.takeWhile (fun c => c.isDigit || c == '_') = n.whole := by
    rw [hchars, List.takeWhile_append_of_pos hwhole]
    simp
  have hdrop : n.chars.dropWhile (fun c => c.isDigit || c == '_') = '.' :: n.fraction := by
    rw [hchars, List.dropWhile_append_of_pos hwhole]
    simp
  have hread : readChars? (n.whole ++ '.' :: n.fraction) = some n.decimal.toFloat := by
    rw [← hchars, ← n.chars_spelling, n.spelling.readChars?_chars, n.readDigits?_chars]
    rfl
  rw [float?, splitSign_pointed hn hfraction]
  simp only [hname (by decide : '.' ∉ "inf".toList), hname (by decide : '.' ∉ "nan".toList),
    if_false, htake, hdrop, List.takeWhile_eq_self_iff.2 hfractional,
    List.dropWhile_eq_nil_iff.2 hfractional,
    wholeDigits?_digits n.whole_ne_nil n.isDigit_of_mem_whole hn.whole,
    plainDigits?_digits hfraction n.isDigit_of_mem_fraction, exponentText?]
  simp [hread, hfinite]

theorem scalar?_pointed (hfinite : n.decimal.toFloat.isFinite) :
    scalar? (minus negative ++ n.chars) =
      some (.float (if negative then -n.decimal.toFloat else n.decimal.toFloat)) := by
  have hname {name : List Char} (h : '.' ∉ name) : minus negative ++ n.chars ≠ name := by
    rintro rfl
    exact h (by simp [chars_of_isPlain hn hfraction])
  rw [scalar?, if_neg (hname (by decide)), if_neg (hname (by decide)),
    integer?_pointed hn hfraction, float?_pointed hn hfraction negative hfinite]
  rfl

end Pointed

/-- A fraction of zero changes no value. -/
theorem exists_pointed (n : Numeral) (hn : n.IsPlain) :
    ∃ p : Numeral, p.IsPlain ∧ p.fraction ≠ [] ∧ p.decimal.toFloat = n.decimal.toFloat ∧
      p.chars = n.chars ++ if '.' ∈ n.chars then [] else ".0".toList := by
  by_cases hfraction : n.fraction = []
  · let p : Numeral := { n with
      fraction := ['0']
      isDigit_of_mem_fraction := by simp }
    have hp : p.IsPlain := ⟨hn.exponent, hn.whole⟩
    have hchars : n.chars = n.whole := by
      simp [Numeral.chars, Numeral.fractionChars, Numeral.exponentChars, hn.exponent, hfraction]
    have hpoint : '.' ∉ n.chars := by
      rw [hchars]
      intro h
      exact absurd (n.isDigit_of_mem_whole _ h) (by decide)
    refine ⟨p, hp, by simp [p], ?_, ?_⟩
    · apply toFloat_eq_of_value_eq
      have hcoefficient : Nat.ofDigitChars 10 (n.whole ++ ['0']) 0 =
          Nat.ofDigitChars 10 n.whole 0 * 10 := by
        rw [Nat.ofDigitChars_append]
        simp [Nat.ofDigitChars, Nat.mul_comm]
      simp only [Numeral.decimal, value, p, hn.exponent, hfraction, hcoefficient]
      push_cast
      norm_num
      ring
    · rw [if_neg hpoint, chars_of_isPlain hp (by simp [p]), hchars]
      rfl
  · refine ⟨n, hn, hfraction, rfl, ?_⟩
    simp [chars_of_isPlain hn hfraction]

/-- A row of characters that is a key without quotes, and so one bare word. -/
structure IsBareRow (cs : List Char) : Prop where
  ne_nil : cs ≠ []
  isBareKey : ∀ c ∈ cs, isBareKey c = true

/-- How a number is spelled: as one word, or as two words with a point between them. -/
inductive SpellsNumber (x : Float) : List Char → Prop
  | word {w : List Char} (hw : IsBareRow w) (h : scalar? w = some (.float x)) : SpellsNumber x w
  | pointed {w f : List Char} (hw : IsBareRow w) (hf : IsBareRow f)
    (h : scalar? (w ++ '.' :: f) = some (.float x)) : SpellsNumber x (w ++ '.' :: f)

theorem isBareRow_digits (negative : Bool) (hne : ds ≠ []) (hds : ∀ c ∈ ds, c.isDigit) :
    IsBareRow (minus negative ++ ds) := by
  have hminus : ∀ c ∈ minus negative, isBareKey c = true := by
    cases negative <;> simp [minus, isBareKey]
  have hdigits : ∀ c ∈ ds, isBareKey c = true := fun c hc => by
    simp [isBareKey, Char.isAlphanum, hds c hc]
  exact ⟨by simp [hne], List.forall_mem_append.2 ⟨hminus, hdigits⟩⟩

/-- The text of a finite number is a pointed numeral behind its sign. -/
theorem exists_pointed_floatText (hx : x.isFinite) :
    ∃ p : Numeral, p.IsPlain ∧ p.fraction ≠ [] ∧ p.decimal.toFloat = x.abs ∧
      (Lattice.floatText x).toList = signChars x ++ p.chars := by
  obtain ⟨n, htext, hvalue, hn⟩ := exists_numeral_positional_isPlain hx
  obtain ⟨p, hp, hfraction, hpvalue, hchars⟩ := exists_pointed n hn
  refine ⟨p, hp, hfraction, hpvalue.trans hvalue, ?_⟩
  have hnan : x.isNaN = false := by
    have hparts : (Double.parts x).isFinite = true := hx
    change (Double.parts x).isNaN = false
    cases hu : Double.parts x <;> first | rfl | simp [hu, UnpackedFloat.isFinite] at hparts
  have hsign : '.' ∉ signChars x := by
    rw [signChars]
    split <;> simp
  rw [Lattice.floatText, htext, hchars]
  rw [hnan, hx, String.contains_char_eq]
  by_cases hpoint : '.' ∈ n.chars
  · simp [hpoint]
  · simp [hpoint, hsign]

theorem exists_signChars_eq (hx : x.isFinite) :
    ∃ negative, signChars x = minus negative ∧ (if negative then -x.abs else x.abs) = x := by
  have hpositive := Double.sign_parts_eq_positive hx
  rw [signChars]
  cases hsign : Double.sign (Double.parts x) with
  | positive =>
    refine ⟨false, by rw [if_pos (hpositive.1 hsign)]; rfl, ?_⟩
    simpa using Double.abs_of_sign_positive hsign
  | negative =>
    have hbits : ¬x.toBits < 0x8000000000000000 := fun h => by
      rw [hpositive.2 h] at hsign
      cases hsign
    refine ⟨true, by rw [if_neg hbits]; rfl, ?_⟩
    simpa using Double.neg_abs_of_sign_negative hsign

theorem eq_infinity (hfinite : x.isFinite = false) (hnan : x.isNaN = false) :
    x = 1.0 / 0.0 ∨ x = -(1.0 / 0.0) := by
  change (Double.parts x).isFinite = false at hfinite
  change (Double.parts x).isNaN = false at hnan
  cases hu : Double.parts x with
  | infinity s =>
    cases s with
    | positive => exact .inl (Double.ext_parts (hu.trans rfl))
    | negative => exact .inr (Double.ext_parts (hu.trans rfl))
  | notANumber => simp [hu, UnpackedFloat.isNaN] at hnan
  | zero s => simp [hu, UnpackedFloat.isFinite] at hfinite
  | finite s m e hm => simp [hu, UnpackedFloat.isFinite] at hfinite

theorem floatText_infinity : (Lattice.floatText (1.0 / 0.0)).toList = ['i', 'n', 'f'] ∧
    (Lattice.floatText (-(1.0 / 0.0))).toList = ['-', 'i', 'n', 'f'] := by
  decide +kernel

/-- Every number is spelled so that it is read back. -/
theorem spellsNumber_floatText (h : x.isNaN = false) :
    SpellsNumber x (Lattice.floatText x).toList := by
  cases hx : x.isFinite with
  | true =>
    obtain ⟨p, hp, hfraction, hvalue, htext⟩ := exists_pointed_floatText hx
    obtain ⟨negative, hsign, habs⟩ := exists_signChars_eq hx
    have hscalar := scalar?_pointed hp hfraction negative (by rw [hvalue, Double.isFinite_abs, hx])
    rw [hvalue, habs] at hscalar
    rw [htext, hsign]
    rw [chars_of_isPlain hp hfraction, ← List.append_assoc] at hscalar ⊢
    exact .pointed (isBareRow_digits negative p.whole_ne_nil p.isDigit_of_mem_whole)
      (isBareRow_digits false hfraction p.isDigit_of_mem_fraction) hscalar
  | false =>
    obtain ⟨hpositive, hnegative⟩ := floatText_infinity
    rcases eq_infinity hx h with rfl | rfl
    · rw [hpositive]
      exact .word ⟨by decide, List.all_eq_true.1 rfl⟩ rfl
    · rw [hnegative]
      exact .word ⟨by decide, List.all_eq_true.1 rfl⟩ rfl

end BeamEnvelope.Toml
