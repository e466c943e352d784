import BeamEnvelope.Decimal.Reading
import BeamEnvelope.Decimal.Text
import BeamEnvelope.Proofs.Decimal.Nearest
import BeamEnvelope.Proofs.Decimal.Spelling

/-!
# Numerals

The scientific and the positional layout both write a numeral: digits, a point with further digits
unless there are none, and perhaps an exponent. Reading a numeral gives its decimal, so a double
written with its shortest digits is read back as it was, whichever layout shows it.
-/

namespace BeamEnvelope.Decimal

/-- An unsigned number in digits. No point is shown in front of an empty fraction. -/
structure Numeral where
  whole : List Char
  fraction : List Char
  exponent : Option Int
  whole_ne_nil : whole ≠ []
  isDigit_of_mem_whole : ∀ c ∈ whole, c.isDigit
  isDigit_of_mem_fraction : ∀ c ∈ fraction, c.isDigit

namespace Numeral

def fractionChars (n : Numeral) : List Char :=
  if n.fraction.isEmpty then [] else '.' :: n.fraction

def exponentChars (n : Numeral) : List Char :=
  match n.exponent with
  | none => []
  | some e => 'e' :: (toString e).toList

def chars (n : Numeral) : List Char := n.whole ++ n.fractionChars ++ n.exponentChars

def decimal (n : Numeral) : Decimal :=
  ⟨Nat.ofDigitChars 10 (n.whole ++ n.fraction) 0, n.exponent.getD 0 - n.fraction.length⟩

/-- There is neither an exponent nor a superfluous zero in front. -/
structure IsPlain (n : Numeral) : Prop where
  exponent : n.exponent = none
  whole : n.whole.head? = some '0' → n.whole.length = 1

end Numeral

theorem isDigit_of_mem_toDigits {n : Nat} : ∀ c ∈ Nat.toDigits 10 n, c.isDigit :=
  fun _ h => Nat.isDigit_of_mem_toDigits (by decide) (by decide) h

/-- Digits have no superfluous zero in front. -/
theorem eq_zero_of_head?_toDigits {n : Nat} (h : (Nat.toDigits 10 n).head? = some '0') : n = 0 := by
  induction n using Nat.strongRecOn with
  | ind n ih =>
    by_cases hn : n < 10
    · rw [Nat.toDigits_of_lt_base hn] at h
      interval_cases n <;> first | rfl | exact absurd h (by decide)
    · have hle : 10 ≤ n := Nat.le_of_not_lt hn
      rw [Nat.toDigits_of_base_le (by decide) hle, List.head?_append_of_ne_nil _ Nat.toDigits_ne_nil]
        at h
      have hzero := ih (n / 10) (Nat.div_lt_self (by omega) (by decide)) h
      omega

theorem toList_toString_ofNat (n : Nat) : (toString (n : Int)).toList = Nat.toDigits 10 n :=
  Nat.toList_repr

theorem toList_toString_negSucc (n : Nat) :
    (toString (Int.negSucc n)).toList = '-' :: Nat.toDigits 10 (n + 1) := by
  change ("-" ++ (n + 1).repr).toList = _
  rw [String.toList_append, Nat.toList_repr]
  rfl

theorem readExponent?_toString (e : Int) : readExponent? ('e' :: (toString e).toList) = some e := by
  cases e with
  | ofNat n =>
    have hdigits := @isDigit_of_mem_toDigits n
    have hne := @Nat.toDigits_ne_nil n 10
    have hread : Nat.ofDigitChars 10 (Nat.toDigits 10 n) 0 = n := Nat.ofDigitChars_ten_toDigits
    rw [Int.ofNat_eq_natCast, toList_toString_ofNat]
    generalize Nat.toDigits 10 n = ds at *
    cases ds with
    | nil => exact absurd rfl hne
    | cons d ds =>
      -- a digit in front is no sign
      have hd := hdigits d List.mem_cons_self
      have hminus : d ≠ '-' := ne_of_isDigit hd rfl
      have hplus : d ≠ '+' := ne_of_isDigit hd rfl
      have hall : (d :: ds).all Char.isDigit = true := List.all_eq_true.2 hdigits
      simp [readExponent?, hminus, hplus, hall, hread]
  | negSucc n =>
    have hdigits := @isDigit_of_mem_toDigits (n + 1)
    have hall : (Nat.toDigits 10 (n + 1)).all Char.isDigit = true := List.all_eq_true.2 hdigits
    rw [toList_toString_negSucc]
    simp [readExponent?, hall]
    omega

namespace Numeral

variable (n : Numeral)

theorem readExponent?_exponentChars : readExponent? n.exponentChars = some (n.exponent.getD 0) := by
  rw [exponentChars]
  cases n.exponent with
  | none => rfl
  | some e => exact readExponent?_toString e

/-- A numeral is one spelling of its decimal. -/
def spelling : Spelling where
  whole := n.whole
  fraction := n.fraction
  pointed := !n.fraction.isEmpty
  exponent := n.exponentChars
  isDigit_of_mem_whole := n.isDigit_of_mem_whole
  isDigit_of_mem_fraction := n.isDigit_of_mem_fraction
  fraction_eq_nil h := by simpa using h
  digits_ne_nil := by simp [n.whole_ne_nil]
  isExponent := isExponent_of_readExponent? n.readExponent?_exponentChars

theorem chars_spelling : n.spelling.chars = n.chars := by
  have hpoint : n.spelling.pointChars = n.fractionChars := by
    change (if !n.fraction.isEmpty then '.' :: n.fraction else []) = n.fractionChars
    rw [fractionChars]
    cases n.fraction <;> rfl
  rw [Spelling.chars, hpoint]
  rfl

theorem readDigits?_chars : readDigits? n.spelling.chars = some n.decimal := by
  rw [n.spelling.readDigits?_chars, spelling, n.readExponent?_exponentChars]
  rfl

end Numeral

theorem isDigit_of_mem_digits (d : Decimal) : ∀ c ∈ d.digits, c.isDigit := isDigit_of_mem_toDigits

theorem digits_ne_nil (d : Decimal) : d.digits ≠ [] := Nat.toDigits_ne_nil

theorem ofDigitChars_digits (d : Decimal) : Nat.ofDigitChars 10 d.digits 0 = d.coefficient :=
  Nat.ofDigitChars_ten_toDigits

theorem isDigit_of_mem_zeros {k : Nat} : ∀ c ∈ zeros k, c.isDigit := by
  intro c hc
  rw [List.eq_of_mem_replicate hc]
  rfl

section Padding

variable {width : Nat} {cs : List Char}

theorem length_padLeft (width : Nat) (cs : List Char) : (padLeft width cs).length = max width cs.length := by
  rw [padLeft, List.length_append, zeros, List.length_replicate]
  omega

theorem isDigit_of_mem_padLeft (h : ∀ c ∈ cs, c.isDigit) : ∀ c ∈ padLeft width cs, c.isDigit := by
  intro c hc
  rcases List.mem_append.1 hc with hzero | hc
  · exact isDigit_of_mem_zeros c hzero
  · exact h c hc

theorem ofDigitChars_padLeft :
    Nat.ofDigitChars 10 (padLeft width cs) 0 = Nat.ofDigitChars 10 cs 0 := by
  rw [padLeft, Nat.ofDigitChars_append, zeros, Nat.ofDigitChars_replicate_zero, Nat.mul_zero]

theorem padLeft_of_le (h : width ≤ cs.length) : padLeft width cs = cs := by
  rw [padLeft, zeros, Nat.sub_eq_zero_of_le h]
  rfl

end Padding

namespace Numeral

variable (d : Decimal)

/-- The first digit, the others behind a point, and an exponent. -/
def ofLeading : Numeral where
  whole := d.digits.take 1
  fraction := d.digits.drop 1
  exponent := some (d.exponent + (d.digits.length - 1 : Nat))
  whole_ne_nil := by simpa using d.digits_ne_nil
  isDigit_of_mem_whole c hc := isDigit_of_mem_digits d c (List.mem_of_mem_take hc)
  isDigit_of_mem_fraction c hc := isDigit_of_mem_digits d c (List.mem_of_mem_drop hc)

theorem decimal_ofLeading : (ofLeading d).decimal = d := by
  have hdigits : (ofLeading d).whole ++ (ofLeading d).fraction = d.digits :=
    List.take_append_drop _ _
  rw [decimal, hdigits, ofDigitChars_digits]
  simp [ofLeading]

/-- Digits with zeros behind them and no point. -/
def ofWhole (k : Nat) : Numeral where
  whole := d.digits ++ zeros k
  fraction := []
  exponent := none
  whole_ne_nil := by simp [d.digits_ne_nil]
  isDigit_of_mem_whole c hc := (List.mem_append.1 hc).elim (isDigit_of_mem_digits d c)
    (isDigit_of_mem_zeros c)
  isDigit_of_mem_fraction := by simp

theorem whole_ofWhole (k : Nat) : (ofWhole d k).whole = d.digits ++ zeros k := rfl

theorem decimal_ofWhole (k : Nat) : (ofWhole d k).decimal = ⟨10 ^ k * d.coefficient, 0⟩ := by
  simp [decimal, ofWhole, zeros, Nat.ofDigitChars_append, ofDigitChars_digits]

/-- Digits, the last `places` of them behind a point, with a zero in front of it if need be. -/
def ofPlaces (places : Nat) : Numeral where
  whole := (padLeft (places + 1) d.digits).take ((padLeft (places + 1) d.digits).length - places)
  fraction := (padLeft (places + 1) d.digits).drop
    ((padLeft (places + 1) d.digits).length - places)
  exponent := none
  whole_ne_nil := by
    have hlength := length_padLeft (places + 1) d.digits
    rw [← List.length_pos_iff, List.length_take]
    omega
  isDigit_of_mem_whole c hc :=
    isDigit_of_mem_padLeft (isDigit_of_mem_digits d) c (List.mem_of_mem_take hc)
  isDigit_of_mem_fraction c hc :=
    isDigit_of_mem_padLeft (isDigit_of_mem_digits d) c (List.mem_of_mem_drop hc)

theorem whole_ofPlaces (places : Nat) : (ofPlaces d places).whole =
    (padLeft (places + 1) d.digits).take ((padLeft (places + 1) d.digits).length - places) := rfl

theorem length_fraction_ofPlaces (places : Nat) : (ofPlaces d places).fraction.length = places := by
  have hlength := length_padLeft (places + 1) d.digits
  rw [ofPlaces, List.length_drop]
  omega

theorem decimal_ofPlaces (places : Nat) :
    (ofPlaces d places).decimal = ⟨d.coefficient, -places⟩ := by
  have hdigits : (ofPlaces d places).whole ++ (ofPlaces d places).fraction =
      padLeft (places + 1) d.digits := List.take_append_drop _ _
  rw [decimal, hdigits, length_fraction_ofPlaces, ofDigitChars_padLeft,
    ofDigitChars_digits]
  simp [ofPlaces]

theorem isPlain_ofWhole {k : Nat} (h : d.coefficient = 0 → k = 0) : (ofWhole d k).IsPlain := by
  refine ⟨rfl, fun hhead => ?_⟩
  have hcoefficient : d.coefficient = 0 := by
    rw [whole_ofWhole, List.head?_append_of_ne_nil _ d.digits_ne_nil] at hhead
    exact eq_zero_of_head?_toDigits hhead
  simp [whole_ofWhole, digits, zeros, hcoefficient, h hcoefficient]

theorem isPlain_ofPlaces {places : Nat} (h : d.coefficient ≠ 0) : (ofPlaces d places).IsPlain := by
  refine ⟨rfl, fun hhead => ?_⟩
  have hlength := length_padLeft (places + 1) d.digits
  rw [whole_ofPlaces] at hhead ⊢
  rw [List.length_take]
  by_cases hshort : d.digits.length ≤ places
  · omega
  · -- nothing is padded, so the first digit is that of the coefficient
    have hpositive : 0 < d.digits.length - places := by omega
    rw [padLeft_of_le (by omega), List.head?_take, if_neg hpositive.ne'] at hhead
    exact absurd (eq_zero_of_head?_toDigits hhead) h

end Numeral

theorem exists_numeral_scientificLayout (d : Decimal) :
    ∃ n : Numeral, scientificLayout d.digits d.exponent = n.chars ∧ n.decimal = d := by
  have hpoint : (d.digits.drop 1).isEmpty = true ↔ d.digits.length ≤ 1 := by
    rw [List.isEmpty_iff, List.drop_eq_nil_iff]
  refine ⟨.ofLeading d, ?_, Numeral.decimal_ofLeading d⟩
  simp only [scientificLayout, Numeral.chars, Numeral.fractionChars, Numeral.exponentChars,
    Numeral.ofLeading, hpoint]

theorem exists_numeral_positionalLayout (d : Decimal) :
    ∃ n : Numeral, positionalLayout d.digits d.exponent = n.chars ∧ n.decimal.value = d.value ∧
      ((d.coefficient = 0 → d.exponent = 0) → n.IsPlain) := by
  by_cases hk : 0 ≤ d.exponent
  · refine ⟨.ofWhole d d.exponent.toNat, ?_, ?_, fun hzero =>
      Numeral.isPlain_ofWhole d fun h => by rw [hzero h, Int.toNat_zero]⟩
    · simp [positionalLayout, hk, Numeral.ofWhole, Numeral.chars, Numeral.fractionChars,
        Numeral.exponentChars]
    · rw [Numeral.decimal_ofWhole, value, value]
      push_cast
      rw [mul_one, mul_comm, ← zpow_natCast, Int.toNat_of_nonneg hk]
  · refine ⟨.ofPlaces d (-d.exponent).toNat, ?_, ?_, fun hzero =>
      Numeral.isPlain_ofPlaces d fun h => hk (hzero h).ge⟩
    · have hshown : (Numeral.ofPlaces d (-d.exponent).toNat).fraction.isEmpty = false := by
        rw [List.isEmpty_eq_false_iff, ← List.length_pos_iff, Numeral.length_fraction_ofPlaces]
        omega
      rw [Numeral.chars, Numeral.fractionChars, hshown]
      simp [positionalLayout, hk, Numeral.ofPlaces, Numeral.exponentChars]
    · rw [Numeral.decimal_ofPlaces, value, value]
      congr 2
      dsimp only
      omega

def signChars (x : Float) : List Char := if x.toBits < 0x8000000000000000 then [] else ['-']

theorem signed_eq {x : Float} (hx : x.isFinite) (body : Float → List Char) :
    signed body x = String.ofList (signChars x ++ body x) := by
  have hparts : (Double.parts x).isNaN = false ∧ (Double.parts x).isInf = false := by
    change (Double.parts x).isFinite = true at hx
    cases hu : Double.parts x with
    | zero s => exact ⟨rfl, rfl⟩
    | finite s m e hm => exact ⟨rfl, rfl⟩
    | infinity s =>
      rw [hu] at hx
      exact absurd hx Bool.false_ne_true
    | notANumber =>
      rw [hu] at hx
      exact absurd hx Bool.false_ne_true
  have hnan : x.isNaN = false := hparts.1
  have hinf : x.isInf = false := hparts.2
  rw [signed, hnan, hinf]
  rfl

theorem exists_numeral_scientific {x : Float} (hx : x.isFinite) :
    ∃ n : Numeral, scientific x = String.ofList (signChars x ++ n.chars) ∧
      n.decimal.toFloat = x.abs := by
  obtain ⟨n, hchars, hdecimal⟩ := exists_numeral_scientificLayout (shortest x)
  refine ⟨n, ?_, ?_⟩
  · rw [scientific, signed_eq hx, hchars]
  · rw [hdecimal, toFloat_shortest hx]

/-- Zero is shown without an exponent. -/
theorem exponent_trim {d : Decimal} (h : d.trim.coefficient = 0) : d.trim.exponent = 0 := by
  fun_induction trim d with
  | case1 d hd => rfl
  | case2 d hd hten ih => exact ih h
  | case3 d hd hten => exact absurd h hd

theorem exists_numeral_positional_isPlain {x : Float} (hx : x.isFinite) :
    ∃ n : Numeral, positional x = String.ofList (signChars x ++ n.chars) ∧
      n.decimal.toFloat = x.abs ∧ n.IsPlain := by
  obtain ⟨n, hchars, hvalue, hplain⟩ := exists_numeral_positionalLayout (shortest x)
  refine ⟨n, ?_, ?_, hplain exponent_trim⟩
  · rw [positional, signed_eq hx, hchars]
  · rw [toFloat_eq_of_value_eq hvalue, toFloat_shortest hx]

theorem exists_numeral_positional {x : Float} (hx : x.isFinite) :
    ∃ n : Numeral, positional x = String.ofList (signChars x ++ n.chars) ∧
      n.decimal.toFloat = x.abs := by
  obtain ⟨n, hchars, hvalue, -⟩ := exists_numeral_positional_isPlain hx
  exact ⟨n, hchars, hvalue⟩

end BeamEnvelope.Decimal
