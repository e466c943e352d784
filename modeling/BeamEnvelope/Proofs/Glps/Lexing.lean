import BeamEnvelope.Glps.Printing
import BeamEnvelope.Proofs.Decimal.Numeral
import BeamEnvelope.Proofs.Glps.Tokens
import BeamEnvelope.Proofs.Text.Bytes

/-!
# Bytes in front of a source and the tokens they form

Which token is formed depends on the bytes behind it: a name or a numeral goes on as long as it can.
So each kind of token has one statement about its bytes with the rest of the source behind them, and
says what the rest must not begin with. The statements are joined one after another.
-/

namespace BeamEnvelope.Glps

open Bytes

variable {b : UInt8} {bytes mid rest : List UInt8} {ts us : List Token} {s : String}

/-- From any position, `bytes` start with the tokens `ts` and go on with `rest`. -/
def Lexes (bytes : List UInt8) (ts : List Token) (rest : List UInt8) : Prop :=
  ∀ pos, ∃ pos', (Stream.ofBytes pos bytes).Begins ts (Stream.ofBytes pos' rest)

theorem Lexes.refl (bytes : List UInt8) : Lexes bytes [] bytes := fun pos => ⟨pos, .nil _⟩

theorem Lexes.append (h : Lexes bytes ts mid) (h' : Lexes mid us rest) :
    Lexes bytes (ts ++ us) rest := by
  intro pos
  obtain ⟨pos', hts⟩ := h pos
  obtain ⟨pos'', hus⟩ := h' pos'
  exact ⟨pos'', hts.append hus⟩

theorem ofBytes_nil (pos : Position) : Stream.ofBytes pos [] = .finish pos := by
  rw [Stream.ofBytes]
  rfl

theorem ofBytes_skip (pos : Position) (front : List UInt8)
    (h : layoutWidth false (front ++ rest) = front.length + layoutWidth false rest) :
    Stream.ofBytes pos (front ++ rest) = Stream.ofBytes (pos.past front) rest := by
  rw [Stream.ofBytes, Stream.ofBytes, h, List.take_length_add_append, List.drop_length_add_append,
    Position.past_append]

/-- Bytes in front that are skipped before any token. -/
theorem lexes_layout (front : List UInt8)
    (h : layoutWidth false (front ++ rest) = front.length + layoutWidth false rest) :
    Lexes (front ++ rest) [] rest := by
  intro pos
  exact ⟨pos.past front, ofBytes_skip pos front h ▸ .nil _⟩

theorem lexes_blank (h : isBlank b = true) : Lexes (b :: rest) [] rest := by
  refine lexes_layout [b] ?_
  rw [List.singleton_append, layoutWidth, if_pos h]
  exact Nat.add_comm _ 1

theorem layoutWidth_comment (h : Position.newline ∉ bytes) :
    layoutWidth true (bytes ++ Position.newline :: rest) =
      bytes.length + 1 + layoutWidth false rest := by
  induction bytes with
  | nil => exact Nat.add_comm _ 1
  | cons b bytes ih =>
    obtain ⟨hb, hbytes⟩ := not_or.1 (List.mem_cons.not.1 h)
    have hopen : (b != Position.newline) = true := bne_iff_ne.2 (Ne.symm hb)
    rw [List.cons_append, layoutWidth, hopen, ih hbytes, List.length_cons]
    omega

/-- A comment goes on to the end of its line. -/
theorem lexes_comment (h : Position.newline ∉ bytes) :
    Lexes (hash :: bytes ++ Position.newline :: rest) [] rest := by
  have hsplit : hash :: bytes ++ Position.newline :: rest =
      (hash :: bytes ++ [Position.newline]) ++ rest := by simp
  rw [hsplit]
  refine lexes_layout _ ?_
  rw [← hsplit, List.cons_append, layoutWidth, if_neg (by decide), if_pos (by decide),
    layoutWidth_comment h, List.length_append, List.length_cons, List.length_singleton]
  omega

theorem layoutWidth_eq_zero (hblank : isBlank b = false) (hhash : b ≠ hash) :
    layoutWidth false (b :: rest) = 0 := by
  simp [layoutWidth, hblank, hhash]

theorem ofBytes_cons (hblank : isBlank b = false) (hhash : b ≠ hash) (pos : Position) :
    Stream.ofBytes pos (b :: rest) = match scan pos b rest with
      | .error f => .fault f
      | .ok (t, width) =>
        .token t pos (.ofBytes ((pos.next b).past (rest.take width)) (rest.drop width)) := by
  rw [Stream.ofBytes, layoutWidth_eq_zero hblank hhash]
  rfl

/-- A token at the front, with the bytes behind its first one that belong to it. -/
theorem lexes_of_scan {t : Token} (taken : List UInt8) (hblank : isBlank b = false)
    (hhash : b ≠ hash) (h : ∀ pos, scan pos b (taken ++ rest) = .ok (t, taken.length)) :
    Lexes (b :: (taken ++ rest)) [t] rest := by
  intro pos
  refine ⟨(pos.next b).past taken, ?_⟩
  rw [ofBytes_cons hblank hhash, h pos]
  dsimp only
  rw [List.take_left, List.drop_left]
  exact .cons t pos (.nil _)

theorem lexes_mark (m : Mark) : Lexes (m.char.toUInt8 :: rest) [.mark m] rest := by
  have hname : startsName m.char.toUInt8 = false := by cases m <;> rfl
  have hnumeral : startsNumeral m.char.toUInt8 rest = false := by cases m <;> rfl
  have hquote : (m.char.toUInt8 == quote) = false := by cases m <;> rfl
  refine lexes_of_scan [] (by cases m <;> rfl) (by cases m <;> decide) fun pos => ?_
  rw [List.nil_append, scan, hname, hnumeral, hquote, Mark.ofByte?_char]
  rfl

theorem toNat_lt_of_isName (h : isName b = true) : b.toNat < 128 := by
  simp only [isName, endsName, startsName, isLetter, isDigit, colon, Bool.or_eq_true,
    Bool.and_eq_true, decide_eq_true_iff, beq_iff_eq, UInt8.le_iff_toNat_le] at h
  rcases h with (((⟨-, h⟩ | ⟨-, h⟩) | rfl) | ⟨-, h⟩) | rfl
  · exact Nat.lt_of_le_of_lt h (by decide)
  · exact Nat.lt_of_le_of_lt h (by decide)
  · decide
  · exact Nat.lt_of_le_of_lt h (by decide)
  · decide

theorem isName_of_startsName (h : startsName b = true) : isName b = true := by
  simp [isName, endsName, h]

theorem not_blank_of_startsName (h : startsName b = true) : isBlank b = false ∧ b ≠ hash := by
  have hlow : 65 ≤ b.toNat := by
    simp only [startsName, isLetter, Bool.or_eq_true, Bool.and_eq_true, decide_eq_true_iff,
      beq_iff_eq, UInt8.le_iff_toNat_le] at h
    rcases h with (⟨h, -⟩ | ⟨h, -⟩) | rfl
    · exact h
    · exact Nat.le_trans (by decide) h
    · decide
  constructor
  · rw [isBlank, Bool.or_eq_false_iff, Bool.and_eq_false_iff]
    refine ⟨beq_eq_false_iff_ne.2 ?_, .inr (decide_eq_false ?_)⟩
    · rintro rfl
      exact absurd hlow (by decide)
    · rw [UInt8.le_iff_toNat_le]
      exact fun hle => absurd (Nat.le_trans hlow hle) (by decide)
  · rintro rfl
    exact absurd hlow (by decide)

theorem ascii_map_toUInt8 {cs : List Char} (h : ∀ c ∈ cs, c.toNat < 128) :
    ascii (cs.map Char.toUInt8) = String.ofList cs := by
  rw [ascii, List.map_map]
  conv_rhs => rw [← List.map_id cs]
  congr 1
  exact List.map_congr_left fun c hc => ofNat_toNat_toUInt8 (h c hc)

theorem ascii_bytesOf (h : ∀ b ∈ bytesOf s, b.toNat < 128) : ascii (bytesOf s) = s := by
  have hchars := lt_of_mem_toList h
  have hbytes := bytesOf_ofList hchars
  rw [String.ofList_toList] at hbytes
  rw [hbytes, ascii_map_toUInt8 hchars, String.ofList_toList]

theorem bytesOf_ascii (h : ∀ b ∈ bytes, b.toNat < 128) : bytesOf (ascii bytes) = bytes := by
  have hchars : ∀ c ∈ bytes.map fun b => Char.ofNat b.toNat, c.toNat < 128 := by
    intro c hc
    obtain ⟨b, hb, rfl⟩ := List.mem_map.1 hc
    rw [toNat_ofNat_of_byte]
    exact h b hb
  rw [ascii, bytesOf_ofList hchars, List.map_map]
  conv_rhs => rw [← List.map_id bytes]
  exact List.map_congr_left fun b _ => toUInt8_ofNat b

theorem isIdentifier_iff : isIdentifier s = true ↔ ∃ b rest, bytesOf s = b :: rest ∧
    startsName b = true ∧ (∀ c ∈ rest, isName c = true) ∧ (b :: rest).getLast? ≠ some colon := by
  unfold isIdentifier
  cases bytesOf s with
  | nil => simp
  | cons b rest =>
    simp only [Bool.and_eq_true, List.all_eq_true, bne_iff_ne, ne_eq, List.cons.injEq]
    constructor
    · rintro ⟨⟨hb, hrest⟩, hlast⟩
      exact ⟨b, rest, ⟨rfl, rfl⟩, hb, hrest, hlast⟩
    · rintro ⟨_, _, ⟨rfl, rfl⟩, hb, hrest, hlast⟩
      exact ⟨⟨hb, hrest⟩, hlast⟩

theorem isName_of_mem_bytesOf (h : isIdentifier s = true) : ∀ b ∈ bytesOf s, isName b = true := by
  obtain ⟨b, rest, hs, hb, hrest, -⟩ := isIdentifier_iff.1 h
  rw [hs]
  exact List.forall_mem_cons.2 ⟨isName_of_startsName hb, hrest⟩

/-- Colons behind a name do not belong to it. -/
theorem leadingName_append (hname : ∀ b ∈ bytes, isName b = true)
    (hlast : bytes.getLast? ≠ some colon) (hrest : ∀ b ∈ rest.takeWhile isName, b = colon) :
    leadingName (bytes ++ rest) = bytes := by
  have hcolons : ∀ b ∈ (rest.takeWhile isName).reverse, (b == colon) = true := by
    intro b hb
    rw [beq_iff_eq]
    exact hrest b (List.mem_reverse.1 hb)
  rw [leadingName, List.takeWhile_append_of_pos hname, List.reverse_append,
    List.dropWhile_append_of_pos hcolons]
  rw [List.getLast?_eq_head?_reverse] at hlast
  cases hreverse : bytes.reverse with
  | nil =>
    rw [List.reverse_eq_nil_iff.1 hreverse]
    rfl
  | cons b bs =>
    rw [hreverse] at hlast
    have hb : (b == colon) = false := by simpa using hlast
    rw [List.dropWhile_cons, if_neg (by simp [hb]), ← hreverse, List.reverse_reverse]

/-- A name ends where only colons stand in front of the next byte that no name contains. -/
theorem lexes_name (h : isIdentifier s = true) (hrest : ∀ b ∈ rest.takeWhile isName, b = colon) :
    Lexes (bytesOf s ++ rest) [.name s] rest := by
  have hname := isName_of_mem_bytesOf h
  obtain ⟨b, taken, hs, hb, -, hlast⟩ := isIdentifier_iff.1 h
  rw [hs] at hname ⊢
  have hascii : ascii (b :: taken) = s := by
    rw [← hs]
    exact ascii_bytesOf fun c hc => toNat_lt_of_isName (hname c (hs ▸ hc))
  obtain ⟨hblank, hhash⟩ := not_blank_of_startsName hb
  refine lexes_of_scan taken hblank hhash fun pos => ?_
  rw [scan, if_pos hb, ← List.cons_append, leadingName_append hname hlast hrest]
  dsimp only
  rw [hascii]
  rfl

theorem isDigit_toUInt8 {c : Char} (h : c.isDigit = true) : isDigit c.toUInt8 = true := by
  obtain ⟨hlow, hhigh⟩ := Char.isDigit_iff_toNat.1 h
  have hvalue : c.toUInt8.toNat = c.toNat := by
    rw [← toNat_ofNat_of_byte, ofNat_toNat_toUInt8 (Decimal.toNat_lt_of_isDigit h)]
  rw [isDigit, Bool.and_eq_true, decide_eq_true_iff, decide_eq_true_iff, UInt8.le_iff_toNat_le,
    UInt8.le_iff_toNat_le, hvalue]
  exact ⟨hlow, hhigh⟩

def EndsNumeral (rest : List UInt8) : Prop :=
  ∀ b, rest.head? = some b → isDigit b = false ∧ b ≠ dot ∧ b ≠ 101 ∧ b ≠ 69

theorem takeWhile_digits {ds : List Char} (hds : ∀ c ∈ ds, c.isDigit = true)
    (hrest : ∀ b, rest.head? = some b → isDigit b = false) :
    (ds.map Char.toUInt8 ++ rest).takeWhile isDigit = ds.map Char.toUInt8 := by
  have hbytes : ∀ b ∈ ds.map Char.toUInt8, isDigit b = true := by
    intro b hb
    obtain ⟨c, hc, rfl⟩ := List.mem_map.1 hb
    exact isDigit_toUInt8 (hds c hc)
  rw [List.takeWhile_append_of_pos hbytes]
  cases rest with
  | nil => simp
  | cons b rest => simp [hrest b rfl]

theorem exponentWidth_of_isExponent {cs : List Char} (h : Decimal.IsExponent cs)
    (hrest : EndsNumeral rest) : exponentWidth (cs.map Char.toUInt8 ++ rest) = cs.length := by
  rcases h with rfl | ⟨letter, sign, digits, rfl, hletter, hsign, hne, hdigits⟩
  · cases rest with
    | nil => rfl
    | cons b rest =>
      obtain ⟨-, -, hlower, hupper⟩ := hrest b rfl
      simp [exponentWidth, hlower, hupper]
  · have hwidth := takeWhile_digits hdigits fun b hb => (hrest b hb).1
    have hlower : 'e'.toUInt8 = 101 := rfl
    have hupper : 'E'.toUInt8 = 69 := rfl
    have hplus : '+'.toUInt8 = 43 := rfl
    have hminus : '-'.toUInt8 = 45 := rfl
    rcases hsign with rfl | rfl | rfl
    · obtain ⟨d, ds, rfl⟩ := List.exists_cons_of_ne_nil hne
      have hd := isDigit_toUInt8 (hdigits d List.mem_cons_self)
      -- a digit in front is no sign
      have hnoplus : d.toUInt8 ≠ 43 := fun h => absurd (h ▸ hd) (by decide)
      have hnominus : d.toUInt8 ≠ 45 := fun h => absurd (h ▸ hd) (by decide)
      simp only [List.map_cons, List.cons_append] at hwidth
      rcases hletter with rfl | rfl <;>
        simp [exponentWidth, hlower, hupper, hnoplus, hnominus, hwidth, Nat.add_comm]
    all_goals
      rcases hletter with rfl | rfl <;>
        simp [exponentWidth, hlower, hupper, hplus, hminus, hwidth, hne] <;>
        omega

theorem head?_exponent {cs : List Char} (h : Decimal.IsExponent cs) (hrest : EndsNumeral rest)
    (hb : (cs.map Char.toUInt8 ++ rest).head? = some b) : isDigit b = false ∧ b ≠ dot := by
  cases cs with
  | nil => exact ⟨(hrest b hb).1, (hrest b hb).2.1⟩
  | cons c cs =>
    obtain rfl := Option.some.inj hb
    rcases h.head? (c := c) rfl with rfl | rfl <;> exact ⟨rfl, by decide⟩

theorem numeralWidth_without_point {whole behind : List UInt8}
    (hwhole : (whole ++ behind).takeWhile isDigit = whole) (hpoint : behind.head? ≠ some dot) :
    numeralWidth (whole ++ behind) = whole.length + exponentWidth behind := by
  simp only [numeralWidth, hwhole, List.drop_left]
  cases behind with
  | nil => simp
  | cons b behind =>
    have hb : (b == dot) = false := by simpa using hpoint
    simp [hb]

theorem numeralWidth_with_point {whole digits behind : List UInt8}
    (hwhole : (whole ++ dot :: (digits ++ behind)).takeWhile isDigit = whole)
    (hdigits : (digits ++ behind).takeWhile isDigit = digits) :
    numeralWidth (whole ++ dot :: (digits ++ behind)) =
      whole.length + (1 + digits.length) + exponentWidth behind := by
  have hdrop : (whole ++ dot :: (digits ++ behind)).drop (whole.length + (1 + digits.length)) =
      behind := by
    rw [← List.drop_drop, List.drop_left, Nat.add_comm, List.drop_succ_cons, List.drop_left]
  simp only [numeralWidth, hwhole, List.drop_left, beq_self_eq_true, if_true, hdigits, hdrop]

theorem numeralWidth_chars (p : Decimal.Spelling) (hrest : EndsNumeral rest) :
    numeralWidth (p.chars.map Char.toUInt8 ++ rest) = p.chars.length := by
  have hexponent := exponentWidth_of_isExponent p.isExponent hrest
  have hends := fun b => @head?_exponent b rest p.exponent p.isExponent hrest
  have hbytes : p.chars.map Char.toUInt8 ++ rest = p.whole.map Char.toUInt8 ++
      (p.pointChars.map Char.toUInt8 ++ (p.exponent.map Char.toUInt8 ++ rest)) := by
    simp [Decimal.Spelling.chars]
  have hlength : p.chars.length = p.whole.length + p.pointChars.length + p.exponent.length := by
    rw [Decimal.Spelling.chars, List.length_append, List.length_append]
  rw [hbytes, hlength, Decimal.Spelling.pointChars]
  cases p.pointed with
  | false =>
    have hwhole := takeWhile_digits p.isDigit_of_mem_whole fun b hb => (hends b hb).1
    have hwidth := numeralWidth_without_point hwhole fun h => (hends dot h).2 rfl
    rw [hexponent, List.length_map] at hwidth
    exact hwidth
  | true =>
    have hdigits := takeWhile_digits p.isDigit_of_mem_fraction fun b hb => (hends b hb).1
    have hdot : ∀ b, (dot :: (p.fraction.map Char.toUInt8 ++
        (p.exponent.map Char.toUInt8 ++ rest))).head? = some b → isDigit b = false := by
      intro b hb
      obtain rfl := Option.some.inj hb
      rfl
    have hwidth := numeralWidth_with_point (takeWhile_digits p.isDigit_of_mem_whole hdot) hdigits
    rw [hexponent, List.length_map, List.length_map, Nat.add_comm 1] at hwidth
    exact hwidth

theorem not_blank_of_isDigit (h : isDigit b = true) :
    isBlank b = false ∧ b ≠ hash ∧ startsName b = false := by
  obtain ⟨hlow, hhigh⟩ : 48 ≤ b.toNat ∧ b.toNat ≤ 57 := by
    simpa [isDigit, UInt8.le_iff_toNat_le] using h
  have hne (c : UInt8) (hc : c.toNat < 48 ∨ 57 < c.toNat) : b ≠ c := by
    rintro rfl
    omega
  have hspace : b ≠ 32 := hne 32 (by decide)
  have hunderscore : b ≠ 95 := hne 95 (by decide)
  refine ⟨?_, hne hash (by decide), ?_⟩
  · simp only [isBlank, UInt8.le_iff_toNat_le, Bool.or_eq_false_iff, Bool.and_eq_false_iff,
      beq_eq_false_iff_ne, decide_eq_false_iff_not]
    exact ⟨hspace, .inr fun h => absurd (Nat.le_trans hlow h) (by decide)⟩
  · simp only [startsName, isLetter, UInt8.le_iff_toNat_le, Bool.or_eq_false_iff,
      Bool.and_eq_false_iff, beq_eq_false_iff_ne, decide_eq_false_iff_not]
    exact ⟨⟨.inl fun h => absurd (Nat.le_trans h hhigh) (by decide),
      .inl fun h => absurd (Nat.le_trans h hhigh) (by decide)⟩, hunderscore⟩

theorem startsNumeral_chars {c : Char} {cs : List Char}
    (h : c.isDigit ∨ c = '.' ∧ ∃ d, cs.head? = some d ∧ d.isDigit) :
    isBlank c.toUInt8 = false ∧ c.toUInt8 ≠ hash ∧ startsName c.toUInt8 = false ∧
      startsNumeral c.toUInt8 (cs.map Char.toUInt8 ++ rest) = true := by
  rcases h with hc | ⟨rfl, d, hd, hdigit⟩
  · have hdigit := isDigit_toUInt8 hc
    obtain ⟨hblank, hhash, hname⟩ := not_blank_of_isDigit hdigit
    exact ⟨hblank, hhash, hname, by rw [startsNumeral, hdigit, Bool.true_or]⟩
  · obtain ⟨cs', rfl⟩ : ∃ cs', cs = d :: cs' := List.head?_eq_some_iff.1 hd
    have hpoint : startsNumeral '.'.toUInt8 ((d :: cs').map Char.toUInt8 ++ rest) =
        isDigit d.toUInt8 := rfl
    exact ⟨rfl, by decide, rfl, by rw [hpoint, isDigit_toUInt8 hdigit]⟩

/-- A number in digits is read as the double nearest to it, if there is one, however it is
spelled. -/
theorem lexes_spelling (p : Decimal.Spelling) {d : Decimal}
    (hread : Decimal.readDigits? p.chars = some d) (hfinite : d.toFloat.isFinite = true)
    (hrest : EndsNumeral rest) :
    Lexes (p.chars.map Char.toUInt8 ++ rest) [.number d.toFloat] rest := by
  have hwidth := numeralWidth_chars p hrest
  have hvalue : Decimal.readChars? p.chars = some d.toFloat := by
    rw [p.readChars?_chars, hread]
    rfl
  obtain ⟨c, cs, hchars, hc⟩ := p.exists_cons_chars
  obtain ⟨hblank, hhash, hname, hstarts⟩ := @startsNumeral_chars rest c cs hc
  have htext : ascii ((p.chars.map Char.toUInt8 ++ rest).take p.chars.length) =
      String.ofList p.chars := by
    rw [List.take_left' (List.length_map _), ascii_map_toUInt8 p.toNat_lt_of_mem_chars]
  rw [hchars] at hwidth htext hvalue ⊢
  refine lexes_of_scan (cs.map Char.toUInt8) hblank hhash fun pos => ?_
  rw [scan, hname, if_neg Bool.false_ne_true, hstarts, if_pos rfl]
  dsimp only
  rw [List.map_cons, List.cons_append] at hwidth htext
  rw [hwidth, htext, numeral, Decimal.read?, String.toList_ofList, hvalue]
  dsimp only
  rw [if_pos hfinite, List.length_map]
  rfl

theorem exists_numeral_numberText {x : Float} (hx : x.isFinite) :
    ∃ n : Decimal.Numeral, numberText x = String.ofList (Decimal.signChars x ++ n.chars) ∧
      n.decimal.toFloat = x.abs := by
  unfold numberText
  dsimp only
  split
  · exact Decimal.exists_numeral_scientific hx
  · exact Decimal.exists_numeral_positional hx

/-- The tokens of a number, whose sign is one of its own. -/
def numberTokens (x : Float) : List Token :=
  if x.toBits < 0x8000000000000000 then [.number x] else [.mark .minus, .number x.abs]

theorem lexes_number {x : Float} (hx : x.isFinite) (hrest : EndsNumeral rest) :
    Lexes (bytesOf (numberText x) ++ rest) (numberTokens x) rest := by
  obtain ⟨n, htext, hvalue⟩ := exists_numeral_numberText hx
  have hnumeral := lexes_spelling n.spelling n.readDigits?_chars
    (by rw [hvalue, Double.isFinite_abs]; exact hx) hrest
  rw [← n.chars_spelling] at htext
  have hascii : ∀ c ∈ Decimal.signChars x ++ n.spelling.chars, c.toNat < 128 := by
    intro c hc
    rcases List.mem_append.1 hc with hc | hc
    · rw [Decimal.signChars] at hc
      split at hc
      · cases hc
      · obtain rfl := List.mem_singleton.1 hc
        decide
    · exact n.spelling.toNat_lt_of_mem_chars c hc
  rw [htext, bytesOf_ofList hascii, numberTokens, Decimal.signChars]
  split
  · rename_i hsign
    rw [hvalue, Double.abs_of_sign_positive ((Double.sign_parts_eq_positive hx).2 hsign)] at hnumeral
    exact hnumeral
  · rw [hvalue] at hnumeral
    exact (lexes_mark .minus).append hnumeral

/-- A text with neither a quote nor a NUL, which is what can stand between quotes. -/
def IsQuotable (s : String) : Prop := '"' ∉ s.toList ∧ '\x00' ∉ s.toList

theorem isQuotable_iff_bytes : IsQuotable s ↔ ∀ b ∈ bytesOf s, b ≠ quote ∧ b ≠ 0 := by
  have hquote : quote ∈ bytesOf s ↔ '"' ∈ s.toList := mem_bytesOf (by decide)
  have hnul : 0 ∈ bytesOf s ↔ '\x00' ∈ s.toList := mem_bytesOf (by decide)
  rw [IsQuotable, ← hquote, ← hnul]
  constructor
  · rintro ⟨hq, h0⟩ b hb
    exact ⟨fun h => hq (h ▸ hb), fun h => h0 (h ▸ hb)⟩
  · exact fun h => ⟨fun hb => (h _ hb).1 rfl, fun hb => (h _ hb).2 rfl⟩

theorem decode_bytesOf (s : String) : decode (bytesOf s) = s := by
  rw [decode, fromUTF8?_eq_some.2 rfl, Option.getD_some]

theorem lexes_text (hs : IsQuotable s) :
    Lexes (quote :: (bytesOf s ++ quote :: rest)) [.text s] rest := by
  have hbytes := isQuotable_iff_bytes.1 hs
  have hbody : (bytesOf s ++ quote :: rest).takeWhile (fun b => b != quote && b != 0) =
      bytesOf s := by
    rw [List.takeWhile_append_of_pos fun b hb => by simpa using hbytes b hb]
    simp
  have hbehind : bytesOf s ++ quote :: rest = (bytesOf s ++ [quote]) ++ rest := by simp
  have hscan (pos : Position) : scan pos quote (bytesOf s ++ quote :: rest) =
      .ok (.text s, (bytesOf s ++ [quote]).length) := by
    have hliteral : stringLiteral pos (bytesOf s ++ quote :: rest) =
        .ok (.text s, (bytesOf s).length + 1) := by
      simp only [stringLiteral, hbody, List.drop_left, decode_bytesOf]
      rfl
    have hnumeral : startsNumeral quote (bytesOf s ++ quote :: rest) = false := rfl
    rw [List.length_append, scan, if_neg (by decide), hnumeral, if_neg Bool.false_ne_true,
      if_pos (by decide)]
    exact hliteral
  rw [hbehind] at hscan ⊢
  exact lexes_of_scan _ (by decide) (by decide) hscan

end BeamEnvelope.Glps
