import BeamEnvelope.Decimal.Reading
import Mathlib.Data.List.TakeWhile

/-!
# Spellings of numbers

A number can be spelled in more ways than it is written in: its point may come before all digits or
behind them, and its exponent has either letter, any sign and leading zeros. What is read as an
unsigned number in digits is such a spelling.
-/

namespace BeamEnvelope.Decimal

theorem toNat_lt_of_isDigit {c : Char} (h : c.isDigit) : c.toNat < 128 :=
  Nat.lt_of_le_of_lt (Char.isDigit_iff_toNat.1 h).2 (by decide)

theorem ne_of_isDigit {c d : Char} (hc : c.isDigit) (hd : d.isDigit = false) : c ≠ d := by
  rintro rfl
  exact absurd hc (by simp [hd])

theorem toLower_of_isDigit {c : Char} (h : c.isDigit) : c.toLower = c := by
  obtain ⟨-, hle⟩ := Char.isDigit_iff_toNat.1 h
  refine dif_neg ?_
  rintro ⟨hupper, -⟩
  exact absurd (UInt32.le_iff_toNat_le.1 hupper) (Nat.not_le.2 (Nat.lt_of_le_of_lt hle (by decide)))

/-- A row of digits ends where no digit follows. -/
theorem span_digits {ds rest : List Char} (hds : ∀ c ∈ ds, c.isDigit)
    (hrest : ∀ c, rest.head? = some c → c.isDigit = false) :
    (ds ++ rest).takeWhile Char.isDigit = ds ∧ (ds ++ rest).dropWhile Char.isDigit = rest := by
  rw [List.takeWhile_append_of_pos hds, List.dropWhile_append_of_pos hds]
  cases rest with
  | nil => simp
  | cons c cs => simp [hrest c rfl]

/-- No exponent, or one with at least one digit. -/
def IsExponent (cs : List Char) : Prop :=
  cs = [] ∨ ∃ letter sign digits, cs = letter :: (sign ++ digits) ∧
    (letter = 'e' ∨ letter = 'E') ∧ (sign = [] ∨ sign = ['+'] ∨ sign = ['-']) ∧
    digits ≠ [] ∧ ∀ c ∈ digits, c.isDigit

structure Spelling where
  whole : List Char
  fraction : List Char
  /-- Whether there is a point. -/
  pointed : Bool
  exponent : List Char
  isDigit_of_mem_whole : ∀ c ∈ whole, c.isDigit
  isDigit_of_mem_fraction : ∀ c ∈ fraction, c.isDigit
  fraction_eq_nil : pointed = false → fraction = []
  digits_ne_nil : whole ++ fraction ≠ []
  isExponent : IsExponent exponent

variable {cs : List Char} {c : Char} {d : Decimal}

theorem isExponent_of_readExponent? {e : Int} (h : readExponent? cs = some e) : IsExponent cs := by
  unfold readExponent? at h
  split at h
  · exact .inl rfl
  · rename_i letter rest
    split at h
    · cases h
    · rename_i hletter
      have hletter : letter = 'e' ∨ letter = 'E' := by
        simpa [or_iff_not_imp_left] using hletter
      have hdigits {ds : List Char} (hds : ¬ (ds.isEmpty || !ds.all Char.isDigit) = true) :
          ds ≠ [] ∧ ∀ c ∈ ds, c.isDigit := by
        simpa [not_or] using hds
      refine .inr ⟨letter, ?_⟩
      split at h
      rename_i hsign
      split at h
      · cases h
      · rename_i hds
        split at hsign <;> cases hsign
        · exact ⟨['-'], _, rfl, hletter, .inr (.inr rfl), hdigits hds⟩
        · exact ⟨['+'], _, rfl, hletter, .inr (.inl rfl), hdigits hds⟩
        · exact ⟨[], _, rfl, hletter, .inl rfl, hdigits hds⟩

theorem IsExponent.head? (h : IsExponent cs) (hc : cs.head? = some c) : c = 'e' ∨ c = 'E' := by
  rcases h with rfl | ⟨letter, sign, digits, rfl, hletter, -⟩
  · cases hc
  · obtain rfl := Option.some.inj hc
    exact hletter

theorem IsExponent.isDigit_head? (h : IsExponent cs) (hc : cs.head? = some c) :
    c.isDigit = false := by
  rcases h.head? hc with rfl | rfl <;> rfl

namespace Spelling

def pointChars (p : Spelling) : List Char := if p.pointed then '.' :: p.fraction else []

def chars (p : Spelling) : List Char := p.whole ++ p.pointChars ++ p.exponent

def mantissa (p : Spelling) : Decimal :=
  ⟨Nat.ofDigitChars 10 (p.whole ++ p.fraction) 0, -p.fraction.length⟩

variable (p : Spelling)

theorem readDigits?_chars : readDigits? p.chars =
    (readExponent? p.exponent).map fun e => ⟨p.mantissa.coefficient, e + p.mantissa.exponent⟩ := by
  have hexponent (c : Char) (hc : p.exponent.head? = some c) := p.isExponent.isDigit_head? hc
  have hfraction := span_digits p.isDigit_of_mem_fraction hexponent
  have hbehind : ∀ c, (p.pointChars ++ p.exponent).head? = some c → c.isDigit = false := by
    intro c hc
    rw [pointChars] at hc
    split at hc
    · obtain rfl := Option.some.inj hc
      rfl
    · exact hexponent c hc
  have hwhole := span_digits p.isDigit_of_mem_whole hbehind
  have hdigits : (p.whole.isEmpty && p.fraction.isEmpty) = false := by
    rw [← Bool.not_eq_true, Bool.and_eq_true, List.isEmpty_iff, List.isEmpty_iff,
      ← List.append_eq_nil_iff]
    exact p.digits_ne_nil
  rw [readDigits?, chars, List.append_assoc, hwhole.1, hwhole.2, pointChars, mantissa]
  cases hpointed : p.pointed with
  | true =>
    simp only [if_true, List.cons_append, hfraction, hdigits]
    rfl
  | false =>
    -- without a point the exponent stands directly behind the whole part
    have hnil := p.fraction_eq_nil hpointed
    rw [hnil, List.isEmpty_nil, Bool.and_true] at hdigits
    have hpoint : ∀ rest, p.exponent ≠ '.' :: rest := by
      intro rest hrest
      rcases p.isExponent.head? (c := '.') (by rw [hrest]; rfl) with h | h <;> cases h
    simp only [Bool.false_eq_true, if_false, List.nil_append, hnil, hdigits, Bool.false_and]
    rfl

/-- A spelling starts with a digit, or with a point and a digit behind it. -/
theorem exists_cons_chars : ∃ c cs, p.chars = c :: cs ∧
    (c.isDigit ∨ c = '.' ∧ ∃ d, cs.head? = some d ∧ d.isDigit) := by
  rw [chars, List.append_assoc]
  cases hwhole : p.whole with
  | cons c cs =>
    exact ⟨c, _, rfl, .inl (p.isDigit_of_mem_whole c (by rw [hwhole]; exact List.mem_cons_self))⟩
  | nil =>
    have hne := p.digits_ne_nil
    rw [hwhole, List.nil_append] at hne
    have hpointed : p.pointed = true := by
      rw [← Bool.not_eq_false]
      exact fun h => hne (p.fraction_eq_nil h)
    obtain ⟨d, ds, hfraction⟩ := List.exists_cons_of_ne_nil hne
    rw [pointChars, hpointed, hfraction]
    refine ⟨'.', _, rfl, .inr ⟨rfl, d, rfl, p.isDigit_of_mem_fraction d ?_⟩⟩
    rw [hfraction]
    exact List.mem_cons_self

/-- No sign and no word starts like a spelling. -/
theorem ne_of_head?_chars {x : Char} (h : p.chars.head? = some c) (hx : x.isDigit = false)
    (hdot : x ≠ '.') : c ≠ x := by
  obtain ⟨_, cs, hcs, hc⟩ := p.exists_cons_chars
  rw [hcs] at h
  obtain rfl := Option.some.inj h
  rintro rfl
  rcases hc with hc | ⟨rfl, -⟩
  · exact absurd hc (by simp [hx])
  · exact hdot rfl

theorem readUnsigned?_chars : readUnsigned? p.chars = (readDigits? p.chars).map toFloat := by
  obtain ⟨c, cs, hcs, hc⟩ := p.exists_cons_chars
  have hne {x : Char} (hx : x.isDigit = false) (hdot : x ≠ '.') : c ≠ x :=
    p.ne_of_head?_chars (by rw [hcs]; rfl) hx hdot
  have hlower : c.toLower = c := by
    rcases hc with hc | ⟨rfl, -⟩
    · exact toLower_of_isDigit hc
    · rfl
  have hinf : c ≠ 'i' := hne rfl (by decide)
  have hnan : c ≠ 'n' := hne rfl (by decide)
  rw [hcs]
  simp [readUnsigned?, hlower, hinf, hnan]

theorem readChars?_chars : readChars? p.chars = (readDigits? p.chars).map toFloat := by
  obtain ⟨c, cs, hcs, -⟩ := p.exists_cons_chars
  have hne {x : Char} (hx : x.isDigit = false) (hdot : x ≠ '.') : c ≠ x :=
    p.ne_of_head?_chars (by rw [hcs]; rfl) hx hdot
  have hminus : c ≠ '-' := hne rfl (by decide)
  have hplus : c ≠ '+' := hne rfl (by decide)
  rw [← p.readUnsigned?_chars, hcs]
  simp [readChars?, hminus, hplus]

theorem toNat_lt_of_mem_chars : ∀ c ∈ p.chars, c.toNat < 128 := by
  intro c hc
  rw [chars, List.mem_append, List.mem_append] at hc
  rcases hc with (hc | hc) | hc
  · exact toNat_lt_of_isDigit (p.isDigit_of_mem_whole c hc)
  · rw [pointChars] at hc
    split at hc
    · rcases List.mem_cons.1 hc with rfl | hc
      · decide
      · exact toNat_lt_of_isDigit (p.isDigit_of_mem_fraction c hc)
    · cases hc
  · rcases p.isExponent with hnil | ⟨letter, sign, digits, hexponent, hletter, hsign, -, hdigits⟩
    · rw [hnil] at hc
      cases hc
    · rw [hexponent, List.mem_cons, List.mem_append] at hc
      rcases hc with rfl | hc | hc
      · rcases hletter with rfl | rfl <;> decide
      · rcases hsign with rfl | rfl | rfl
        · cases hc
        · obtain rfl := List.mem_singleton.1 hc
          decide
        · obtain rfl := List.mem_singleton.1 hc
          decide
      · exact toNat_lt_of_isDigit (hdigits c hc)

end Spelling

theorem exists_spelling_of_readDigits? (h : readDigits? cs = some d) :
    ∃ p : Spelling, p.chars = cs := by
  unfold readDigits? at h
  extract_lets whole afterWhole at h
  have hwhole : ∀ c ∈ whole, c.isDigit := fun c hc => List.mem_takeWhile_imp hc
  have hcs : whole ++ afterWhole = cs := List.takeWhile_append_dropWhile
  clear_value whole afterWhole
  split at h
  rename_i fraction afterFraction hcut
  split at h
  · cases h
  · rename_i hdigits
    obtain ⟨e, he, -⟩ := Option.map_eq_some_iff.1 h
    have hexponent := isExponent_of_readExponent? he
    have hne : whole ++ fraction ≠ [] := by
      rw [ne_eq, List.append_eq_nil_iff]
      simpa using hdigits
    split at hcut
    · rename_i rest
      cases hcut
      refine ⟨⟨whole, rest.takeWhile Char.isDigit, true, rest.dropWhile Char.isDigit, hwhole,
        fun c hc => List.mem_takeWhile_imp hc, nofun, hne, hexponent⟩, ?_⟩
      rw [← hcs]
      simp [Spelling.chars, Spelling.pointChars, List.takeWhile_append_dropWhile]
    · cases hcut
      refine ⟨⟨whole, [], false, afterWhole, hwhole, nofun, fun _ => rfl, hne, hexponent⟩, ?_⟩
      rw [← hcs]
      simp [Spelling.chars, Spelling.pointChars]

theorem Spelling.exponent_eq_nil (p : Spelling) (h : 'e' ∉ p.chars ∧ 'E' ∉ p.chars) :
    p.exponent = [] := by
  rcases p.isExponent with hnil | ⟨letter, sign, digits, hexponent, hletter, -⟩
  · exact hnil
  · have hmem : letter ∈ p.chars := by
      rw [chars, hexponent]
      exact List.mem_append_right _ List.mem_cons_self
    rcases hletter with rfl | rfl
    · exact absurd hmem h.1
    · exact absurd hmem h.2

/-- An exponent behind digits that have none moves the point. -/
theorem readDigits?_append_exponent {e : List Char} {k : Int} (h : readDigits? cs = some d)
    (hcs : 'e' ∉ cs ∧ 'E' ∉ cs) (he : readExponent? e = some k) :
    readDigits? (cs ++ e) = some ⟨d.coefficient, d.exponent + k⟩ := by
  obtain ⟨p, rfl⟩ := exists_spelling_of_readDigits? h
  have hnil := p.exponent_eq_nil hcs
  let q : Spelling := { p with exponent := e, isExponent := isExponent_of_readExponent? he }
  have hq : q.chars = p.chars ++ e := by
    rw [Spelling.chars, Spelling.chars, hnil, List.append_nil]
    rfl
  rw [p.readDigits?_chars, hnil] at h
  obtain rfl := Option.some.inj h
  rw [← hq, q.readDigits?_chars]
  change (readExponent? e).map _ = _
  rw [he, Option.map_some]
  dsimp only
  rw [Int.zero_add, Int.add_comm]
  rfl

end BeamEnvelope.Decimal
