import BeamEnvelope.Proofs.Glps.ClosedSources
import BeamEnvelope.Proofs.Glps.Lexing

/-!
# Tokens and the layout behind them

A name or a numeral is the longest one that can be formed, and some bytes behind it are looked at to
find that out. Blanks and comments go on with no token. So a token is formed again if the source is
cut off anywhere behind its last byte and goes on with layout, or ends there.
-/

namespace BeamEnvelope.Glps

open Bytes

variable {b : UInt8} {xs ys zs : List UInt8} {p : UInt8 → Bool}

/-- Whether layout stands in front, or nothing at all. -/
def Breaks (bytes : List UInt8) : Prop := ∀ b, bytes.head? = some b → isBlank b = true ∨ b = hash

theorem breaks_nil : Breaks [] := by
  intro b h
  cases h

theorem breaks_of_isBlank (h : isBlank b = true) : Breaks (b :: xs) := by
  intro c hc
  obtain rfl := Option.some.inj hc
  exact .inl h

theorem breaks_hash : Breaks (hash :: xs) := by
  intro c hc
  obtain rfl := Option.some.inj hc
  exact .inr rfl

theorem Breaks.le_hash (h : Breaks (b :: xs)) : b.toNat ≤ 35 := by
  rcases h b rfl with hblank | rfl
  · simp only [isBlank, Bool.or_eq_true, beq_iff_eq, Bool.and_eq_true, decide_eq_true_iff,
      UInt8.le_iff_toNat_le] at hblank
    rcases hblank with rfl | ⟨-, hle⟩
    · decide
    · exact hle.trans (by decide)
  · decide

theorem lt_of_isName (h : isName b = true) : 35 < b.toNat := by
  simp only [isName, endsName, startsName, isLetter, isDigit, colon, Bool.or_eq_true,
    Bool.and_eq_true, decide_eq_true_iff, beq_iff_eq, UInt8.le_iff_toNat_le] at h
  rcases h with (((⟨h, -⟩ | ⟨h, -⟩) | rfl) | ⟨h, -⟩) | rfl
  · exact Nat.lt_of_lt_of_le (by decide) h
  · exact Nat.lt_of_lt_of_le (by decide) h
  · decide
  · exact Nat.lt_of_lt_of_le (by decide) h
  · decide

theorem lt_of_isDigit (h : isDigit b = true) : 35 < b.toNat :=
  lt_of_isName (by simp [isName, endsName, h])

/-- No byte of layout is of the kind. -/
def LeavesLayout (p : UInt8 → Bool) : Prop := ∀ b, p b = true → 35 < b.toNat

theorem takeWhile_of_breaks (hp : LeavesLayout p) (hzs : Breaks zs) : zs.takeWhile p = [] := by
  cases zs with
  | nil => rfl
  | cons z zs =>
    have hz : ¬ p z = true := fun h => absurd hzs.le_hash (Nat.not_le.2 (hp z h))
    rw [List.takeWhile_cons, if_neg hz]

theorem takeWhile_append_breaks (hp : LeavesLayout p) (hzs : Breaks zs) :
    (xs ++ zs).takeWhile p = xs.takeWhile p := by
  rw [List.takeWhile_append, takeWhile_of_breaks hp hzs, List.append_nil]
  split
  · rename_i h
    exact ((List.takeWhile_prefix p).eq_of_length h).symm
  · rfl

/-- A row that ends in front of what follows is the same without it. -/
theorem takeWhile_append_of_length_le (h : ((xs ++ ys).takeWhile p).length ≤ xs.length) :
    (xs ++ ys).takeWhile p = xs.takeWhile p := by
  rw [List.takeWhile_append] at h ⊢
  split
  · rename_i hall
    rw [if_pos hall, List.length_append] at h
    have hnil : ys.takeWhile p = [] := List.eq_nil_of_length_eq_zero (by omega)
    rw [hnil, List.append_nil]
    exact ((List.takeWhile_prefix p).eq_of_length hall).symm
  · rfl

theorem leadingName_cut (h : (leadingName (xs ++ ys)).length ≤ xs.length) (hzs : Breaks zs) :
    leadingName (xs ++ zs) = leadingName (xs ++ ys) := by
  have hname : LeavesLayout isName := fun b => lt_of_isName
  rw [leadingName, leadingName, takeWhile_append_breaks hname hzs] at *
  rw [List.takeWhile_append] at h ⊢
  split
  · -- all of `xs` may stand in a name, and only colons of `ys` are looked at
    rename_i hall
    have hxs : xs.takeWhile isName = xs := (List.takeWhile_prefix isName).eq_of_length hall
    rw [if_pos hall, List.reverse_append, List.dropWhile_append] at h
    rw [hxs, List.reverse_append, List.dropWhile_append]
    split
    · rfl
    · rename_i hne
      rw [if_neg hne, List.length_reverse, List.length_append, List.length_reverse] at h
      have hpos := List.length_pos_iff.2 fun hnil => hne (List.isEmpty_iff.2 hnil)
      omega
  · rfl

theorem exponentWidth_of_breaks (hzs : Breaks zs) : exponentWidth zs = 0 := by
  cases zs with
  | nil => rfl
  | cons z zs =>
    have hle := hzs.le_hash
    have hlower : z ≠ 101 := by rintro rfl; exact absurd hle (by decide)
    have hupper : z ≠ 69 := by rintro rfl; exact absurd hle (by decide)
    simp [exponentWidth, hlower, hupper]

/-- The sign of an exponent, by its width. -/
def signWidth (bytes : List UInt8) : Nat :=
  match bytes with
  | s :: _ => if s == 43 || s == 45 then 1 else 0
  | [] => 0

theorem exponentWidth_cons (b : UInt8) (bytes : List UInt8) : exponentWidth (b :: bytes) =
    if b != 101 && b != 69 then 0
    else if ((bytes.drop (signWidth bytes)).takeWhile isDigit).length = 0 then 0
    else 1 + signWidth bytes + ((bytes.drop (signWidth bytes)).takeWhile isDigit).length := rfl

theorem signWidth_of_breaks (hzs : Breaks zs) : signWidth zs = 0 := by
  cases zs with
  | nil => rfl
  | cons z zs =>
    have hle := hzs.le_hash
    have hplus : z ≠ 43 := by rintro rfl; exact absurd hle (by decide)
    have hminus : z ≠ 45 := by rintro rfl; exact absurd hle (by decide)
    simp [signWidth, hplus, hminus]

theorem signWidth_le (bytes : List UInt8) : signWidth bytes ≤ bytes.length := by
  cases bytes with
  | nil => exact Nat.le_refl _
  | cons s bytes =>
    simp only [signWidth, List.length_cons]
    split <;> omega

theorem exponentWidth_cut (h : exponentWidth (xs ++ ys) ≤ xs.length) (hzs : Breaks zs) :
    exponentWidth (xs ++ zs) = exponentWidth (xs ++ ys) := by
  have hdigit : LeavesLayout isDigit := fun b => lt_of_isDigit
  cases xs with
  | nil =>
    rw [List.nil_append, List.nil_append] at *
    rw [exponentWidth_of_breaks hzs]
    exact (Nat.le_zero.1 h).symm
  | cons e xs =>
    rw [List.cons_append, List.cons_append, exponentWidth_cons, exponentWidth_cons] at *
    split
    · rfl
    · rename_i he
      rw [if_neg he] at h
      cases xs with
      | nil =>
        -- the letter is the last byte in front, so no digit is left
        rw [List.nil_append, List.nil_append] at *
        rw [signWidth_of_breaks hzs, List.drop_zero, takeWhile_of_breaks hdigit hzs]
        split at h
        · rename_i hnone
          rw [List.length_nil, if_pos rfl, if_pos hnone]
        · simp at h
          omega
      | cons s xs =>
        have hsign (bytes : List UInt8) :
            signWidth (s :: xs ++ bytes) = signWidth (s :: xs) := rfl
        have hle := signWidth_le (s :: xs)
        rw [hsign, hsign, List.drop_append_of_le_length hle, List.drop_append_of_le_length hle,
          takeWhile_append_breaks hdigit hzs] at *
        have hfits : (((s :: xs).drop (signWidth (s :: xs)) ++ ys).takeWhile isDigit).length ≤
            ((s :: xs).drop (signWidth (s :: xs))).length := by
          rw [List.length_drop]
          split at h
          · omega
          · simp only [List.length_cons] at h ⊢
            omega
        rw [takeWhile_append_of_length_le hfits]

theorem fractionWidth_of_breaks (hzs : Breaks zs) : fractionWidth zs = 0 := by
  cases zs with
  | nil => rfl
  | cons z zs =>
    have hdot : z ≠ dot := by
      rintro rfl
      exact absurd hzs.le_hash (by decide)
    simp [fractionWidth, hdot]

theorem fractionWidth_cut (h : fractionWidth (xs ++ ys) ≤ xs.length) (hzs : Breaks zs) :
    fractionWidth (xs ++ zs) = fractionWidth (xs ++ ys) := by
  have hdigit : LeavesLayout isDigit := fun b => lt_of_isDigit
  cases xs with
  | nil =>
    rw [List.nil_append, List.nil_append] at *
    rw [fractionWidth_of_breaks hzs]
    exact (Nat.le_zero.1 h).symm
  | cons c xs =>
    simp only [List.cons_append, fractionWidth, List.length_cons] at h ⊢
    split
    · rename_i hc
      rw [if_pos hc] at h
      rw [takeWhile_append_breaks hdigit hzs, takeWhile_append_of_length_le (by omega)]
    · rfl

theorem decimalWidth_cut (h : decimalWidth (xs ++ ys) ≤ xs.length) (hzs : Breaks zs) :
    decimalWidth (xs ++ zs) = decimalWidth (xs ++ ys) := by
  have hdigit : LeavesLayout isDigit := fun b => lt_of_isDigit
  have hle : (xs.takeWhile isDigit).length ≤ xs.length := (List.takeWhile_prefix isDigit).length_le
  rw [decimalWidth_eq] at h
  have hwhole : (xs ++ ys).takeWhile isDigit = xs.takeWhile isDigit :=
    takeWhile_append_of_length_le (by omega)
  rw [hwhole, List.drop_append_of_le_length hle] at h
  have hfits : fractionWidth (xs.drop (xs.takeWhile isDigit).length ++ ys) ≤
      (xs.drop (xs.takeWhile isDigit).length).length := by
    rw [List.length_drop]
    omega
  rw [decimalWidth_eq, decimalWidth_eq, hwhole, takeWhile_append_breaks hdigit hzs,
    List.drop_append_of_le_length hle, List.drop_append_of_le_length hle,
    fractionWidth_cut hfits hzs]

theorem numeralWidth_cut (h : numeralWidth (xs ++ ys) ≤ xs.length) (hzs : Breaks zs) :
    numeralWidth (xs ++ zs) = numeralWidth (xs ++ ys) := by
  rw [numeralWidth_eq] at h
  have hle : decimalWidth (xs ++ ys) ≤ xs.length := by omega
  rw [List.drop_append_of_le_length hle] at h
  have hfits : exponentWidth (xs.drop (decimalWidth (xs ++ ys)) ++ ys) ≤
      (xs.drop (decimalWidth (xs ++ ys))).length := by
    rw [List.length_drop]
    omega
  rw [numeralWidth_eq, numeralWidth_eq, decimalWidth_cut hle hzs,
    List.drop_append_of_le_length hle, List.drop_append_of_le_length hle,
    exponentWidth_cut hfits hzs]

/-- A point at the front of a numeral has a digit behind it, which belongs to the numeral. -/
theorem lt_numeralWidth_point (h : isDigit b = true) : 1 < numeralWidth (dot :: b :: xs) := by
  have hfraction : 1 < fractionWidth (dot :: b :: xs) := by
    simp [fractionWidth, h]
  have hdecimal : decimalWidth (dot :: b :: xs) = 0 + fractionWidth (dot :: b :: xs) := rfl
  rw [numeralWidth_eq]
  omega

theorem startsNumeral_cut (hwidth : numeralWidth (b :: (xs ++ ys)) ≤ xs.length + 1)
    (h : startsNumeral b (xs ++ ys) = true) : startsNumeral b (xs ++ zs) = true := by
  rw [startsNumeral, Bool.or_eq_true] at h ⊢
  rcases h with h | h
  · exact .inl h
  · cases xs with
    | nil =>
      obtain ⟨hb, hys⟩ := Bool.and_eq_true_iff.1 h
      obtain rfl : b = dot := by simpa using hb
      cases ys with
      | nil => cases hys
      | cons y ys =>
        have hlt : 1 < numeralWidth (dot :: y :: ys) := lt_numeralWidth_point hys
        exact absurd hwidth (Nat.not_le.2 hlt)
    | cons x xs => exact .inr h

variable {pos pos' : Position} {t : Token} {width : Nat}

theorem stringLiteral_cut (h : stringLiteral pos (xs ++ ys) = .ok (t, width))
    (hwidth : width ≤ xs.length) (zs : List UInt8) :
    stringLiteral pos' (xs ++ zs) = .ok (t, width) := by
  rw [stringLiteral] at h
  split at h
  · cases h
  · rename_i c rest hcut
    split at h
    · cases h
    · rename_i hc
      cases h
      have hbody : (xs ++ ys).takeWhile (fun b => b != quote && b != 0) =
          xs.takeWhile fun b => b != quote && b != 0 :=
        takeWhile_append_of_length_le (by omega)
      rw [hbody] at hwidth hcut ⊢
      have hsame : (xs ++ zs).takeWhile (fun b => b != quote && b != 0) =
          xs.takeWhile fun b => b != quote && b != 0 := by
        rw [List.takeWhile_append, if_neg (by omega)]
      -- the quote is in `xs`
      have hquote : (xs.drop (xs.takeWhile fun b => b != quote && b != 0).length).head? =
          some c := by
        rw [List.drop_append_of_le_length (by omega)] at hcut
        have hlength :
            (xs.drop (xs.takeWhile fun b => b != quote && b != 0).length).length ≠ 0 := by
          rw [List.length_drop]
          omega
        obtain ⟨x, more, hmore⟩ := List.exists_cons_of_length_pos (Nat.pos_of_ne_zero hlength)
        rw [hmore] at hcut ⊢
        exact congrArg List.head? hcut
      obtain ⟨more, hmore⟩ := List.head?_eq_some_iff.1 hquote
      rw [stringLiteral, hsame, List.drop_append_of_le_length (by omega), hmore, List.cons_append]
      dsimp only
      rw [if_neg hc]

theorem width_le_of_stringLiteral (h : stringLiteral pos xs = .ok (t, width)) :
    width ≤ xs.length := by
  rw [stringLiteral] at h
  split at h
  · cases h
  · rename_i c rest hcut
    have hlength := congrArg List.length hcut
    rw [List.length_drop, List.length_cons] at hlength
    split at h
    · cases h
    · cases h
      omega

theorem numeral_moved {text : String} (h : numeral pos text = .ok t) :
    numeral pos' text = .ok t := by
  rw [numeral] at h ⊢
  split at h
  · cases h
  · split at h
    · rename_i hfinite
      rw [if_pos hfinite]
      exact h
    · cases h

theorem ne_dot_of_ofByte? {m : Mark} (h : Mark.ofByte? b = some m) : b ≠ dot := by
  rintro rfl
  cases h

theorem startsNumeral_of_ne_dot (hb : b ≠ dot) : startsNumeral b xs = isDigit b := by
  simp [startsNumeral, hb]

/-- A token is formed again wherever the source is cut off behind it, if layout or nothing follows
there. -/
theorem scan_cut (h : scan pos b (xs ++ ys) = .ok (t, width)) (hwidth : width ≤ xs.length)
    (hzs : Breaks zs) : scan pos' b (xs ++ zs) = .ok (t, width) := by
  rw [scan] at h ⊢
  split at h
  · rename_i hname
    cases h
    have hfits : (leadingName (b :: xs ++ ys)).length ≤ (b :: xs).length := by
      rw [List.length_cons, List.cons_append]
      omega
    have hcut := leadingName_cut hfits hzs
    rw [List.cons_append, List.cons_append] at hcut
    rw [if_pos hname, hcut]
  · rename_i hname
    rw [if_neg hname]
    split at h
    · rename_i hstarts
      obtain ⟨u, hu, hpair⟩ := map_eq_ok.1 h
      cases hpair
      have hfits : numeralWidth (b :: xs ++ ys) ≤ (b :: xs).length := by
        rw [List.length_cons, List.cons_append]
        omega
      have hcut := numeralWidth_cut hfits hzs
      have htext : (b :: xs ++ zs).take (numeralWidth (b :: xs ++ ys)) =
          (b :: xs ++ ys).take (numeralWidth (b :: xs ++ ys)) := by
        rw [List.take_append_of_le_length hfits, List.take_append_of_le_length hfits]
      rw [List.cons_append, List.cons_append] at hcut htext
      rw [if_pos (startsNumeral_cut hfits hstarts), hcut]
      dsimp only
      rw [htext]
      exact map_eq_ok.2 ⟨t, numeral_moved hu, rfl⟩
    · rename_i hstarts
      split at h
      · rename_i hquote
        -- only behind a point does the next byte say whether a numeral starts
        have hb : b ≠ dot := by
          rw [beq_iff_eq.1 hquote]
          decide
        rw [startsNumeral_of_ne_dot hb] at hstarts ⊢
        rw [if_neg hstarts, if_pos hquote]
        exact stringLiteral_cut h hwidth zs
      · rename_i hquote
        split at h
        · rename_i m hm
          rw [startsNumeral_of_ne_dot (ne_dot_of_ofByte? hm)] at hstarts ⊢
          rw [if_neg hstarts, if_neg hquote]
          exact h
        · cases h

theorem width_le_of_scan (h : scan pos b xs = .ok (t, width)) : width ≤ xs.length := by
  rw [scan] at h
  split at h
  · cases h
    have hle : (leadingName (b :: xs)).length ≤ (b :: xs).length := by
      rw [leadingName, List.length_reverse]
      calc (((b :: xs).takeWhile isName).reverse.dropWhile (· == colon)).length
          ≤ ((b :: xs).takeWhile isName).reverse.length := (List.dropWhile_suffix _).length_le
        _ = ((b :: xs).takeWhile isName).length := List.length_reverse
        _ ≤ (b :: xs).length := (List.takeWhile_prefix isName).length_le
    rw [List.length_cons] at hle
    omega
  · split at h
    · obtain ⟨u, hu, hpair⟩ := map_eq_ok.1 h
      cases hpair
      have hle := numeralWidth_le (b :: xs)
      rw [List.length_cons] at hle
      omega
    · split at h
      · exact width_le_of_stringLiteral h
      · split at h
        · cases h
          exact Nat.zero_le _
        · cases h

end BeamEnvelope.Glps
