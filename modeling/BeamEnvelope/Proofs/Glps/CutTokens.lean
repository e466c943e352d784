import BeamEnvelope.Proofs.Glps.Cursors
import BeamEnvelope.Proofs.Glps.Identifiers
import BeamEnvelope.Proofs.Glps.Numerals

/-!
# Tokens cut out by offsets

From any cursor, what is cut out of the source next is what the stream of the bytes behind the cursor
has in front. So everything that is checked holds: the offsets of a token lie in the source, also the
one in front of a closing quote, the bytes of a name or a numeral are ASCII, and a numeral spells a
number.
-/

namespace BeamEnvelope.Glps

open Bytes

variable {source : List UInt8}

theorem utf8_eq {bytes : List UInt8} (h : ∀ b ∈ bytes, b.toNat < 128) :
    utf8 bytes = .ok (ascii bytes) := by
  rw [utf8, fromUTF8?_eq_some.2 (bytesOf_ascii h).symm]

namespace Cursor

variable {c : Cursor source} {b : UInt8} {bytes : List UInt8} {n : Nat}

/-- What the cursor has gone over lies inside the source. -/
theorem cut_forward (hne : c.rest ≠ []) (hn : n ≤ c.rest.length) :
    cut source c.offset (c.offset + n) = .ok (c.rest.take n) := by
  have hpos := List.length_pos_iff.2 hne
  rw [rest, List.length_drop] at hn hpos
  rw [cut, if_pos (by omega), Nat.add_sub_cancel_left]
  rfl

theorem nameEnd_eq (source : List UInt8) (scan stop : Nat) :
    nameEnd source scan stop = if leadingName (source.drop scan) = [] then stop
      else scan + (leadingName (source.drop scan)).length := by
  -- on the bytes from `scan` on; `stop` counts if none of them ends the name
  induction hrest : source.drop scan generalizing scan stop with
  | nil =>
    rw [nameEnd]
    split
    · rename_i h
      rw [← List.head?_drop, hrest] at h
      cases h
    · rfl
  | cons b bytes ih =>
    have hbytes : source.drop (scan + 1) = bytes := by
      rw [← List.tail_drop, hrest]
      rfl
    rw [nameEnd]
    split
    · rename_i b' h
      rw [← List.head?_drop, hrest] at h
      obtain rfl := Option.some.inj h
      rw [leadingName_cons]
      split
      · rw [ih _ _ hbytes, if_neg (List.cons_ne_nil _ _), List.length_cons]
        split
        · rename_i hnil
          rw [hnil, List.length_nil]
        · omega
      · split
        · rw [ih _ _ hbytes]
          split
          · rw [if_pos rfl]
          · rw [if_neg (List.cons_ne_nil _ _), List.length_cons]
            omega
        · rfl
    · rename_i h
      rw [← List.head?_drop, hrest] at h
      cases h

theorem name_eq (h : c.rest = b :: bytes) (hb : startsName b = true) :
    c.name = .ok (.name (ascii (leadingName c.rest)), c.forward (leadingName c.rest).length) := by
  have hends : endsName b = true := by simp [endsName, hb]
  have hne : leadingName c.rest ≠ [] := by
    rw [h, leadingName_cons, if_pos hends]
    exact List.cons_ne_nil _ _
  have hlength : (leadingName c.rest).length ≤ c.rest.length := by
    rw [← take_length_leadingName]
    exact List.length_take_le' _ _
  have hstop : nameEnd source c.offset c.offset = c.offset + (leadingName c.rest).length := by
    rw [nameEnd_eq, ← rest, if_neg hne]
  have htext : utf8 (leadingName c.rest) = .ok (ascii (leadingName c.rest)) :=
    utf8_eq fun x hx => toNat_lt_of_isName (isName_of_mem_leadingName x hx)
  have hrest : c.rest ≠ [] := h ▸ List.cons_ne_nil _ _
  rw [name, hstop, cut_forward hrest hlength, take_length_leadingName, Nat.add_sub_cancel_left,
    iterate_bump hlength]
  exact bind_of_eq_ok htext _

theorem fraction_eq (c : Cursor source) : c.fraction = c.forward (fractionWidth c.rest) := by
  rw [fraction, peek_eq]
  cases hrest : c.rest with
  | nil => rfl
  | cons b bytes =>
    rw [fractionWidth]
    by_cases hb : b = dot
    · subst hb
      rw [List.head?_cons, if_pos rfl, if_pos (beq_self_eq_true dot), skipWhile_eq,
        bump_eq_forward hrest, forward_forward, rest_forward, hrest]
      rfl
    · rw [if_neg (by simpa using hb), if_neg (by simpa using hb)]
      rfl

theorem ahead_eq (h : c.rest = b :: bytes) :
    (if c.peekAt 1 = some 43 ∨ c.peekAt 1 = some 45 then 2 else 1) = 1 + signWidth bytes := by
  rw [peekAt_eq, h]
  cases bytes with
  | nil => rfl
  | cons s bytes =>
    by_cases hplus : s = 43
    · subst hplus
      rfl
    · by_cases hminus : s = 45
      · subst hminus
        rfl
      · simp [signWidth, hplus, hminus]

theorem any_isDigit_iff (bytes : List UInt8) :
    bytes.head?.any isDigit = true ↔ (bytes.takeWhile isDigit).length ≠ 0 := by
  cases bytes with
  | nil => simp
  | cons b bytes => by_cases hb : isDigit b = true <;> simp [hb]

theorem exponent_eq (c : Cursor source) : c.exponent = c.forward (exponentWidth c.rest) := by
  rw [exponent, peek_eq]
  cases hrest : c.rest with
  | nil => rfl
  | cons b bytes =>
    have hsign : 1 + signWidth bytes ≤ c.rest.length := by
      have := signWidth_le bytes
      rw [hrest, List.length_cons]
      omega
    have hahead : c.peekAt (1 + signWidth bytes) = (bytes.drop (signWidth bytes)).head? := by
      rw [peekAt_eq, hrest, Nat.add_comm, List.getElem?_cons_succ, List.head?_drop]
    have hdrop : c.rest.drop (1 + signWidth bytes) = bytes.drop (signWidth bytes) := by
      rw [hrest, Nat.add_comm, List.drop_succ_cons]
    by_cases hb : b = 101 ∨ b = 69
    · have hletter : ¬ (b != 101 && b != 69) = true := by rcases hb with rfl | rfl <;> decide
      rw [exponentWidth_cons, if_neg hletter, if_pos (by simpa using hb), ahead_eq hrest]
      dsimp only
      rw [hahead]
      by_cases hdigits : ((bytes.drop (signWidth bytes)).takeWhile isDigit).length = 0
      · rw [if_neg (by rw [any_isDigit_iff]; exact not_not.2 hdigits), if_pos hdigits,
          forward_zero]
      · rw [if_pos ((any_isDigit_iff _).2 hdigits), if_neg hdigits, iterate_bump hsign,
          skipWhile_eq, rest_forward, hdrop, forward_forward]
    · have hletter : (b != 101 && b != 69) = true := by simpa [not_or] using hb
      rw [exponentWidth_cons, if_pos hletter, if_neg (by simpa using hb), forward_zero]

theorem number_eq (h : c.rest = b :: bytes) (hb : startsNumeral b bytes = true) :
    c.number = ((numeral c.position (ascii (c.rest.take (numeralWidth c.rest)))).map
      fun t => (t, c.forward (numeralWidth c.rest))).mapError .fault := by
  have hbehind : (c.skipWhile isDigit).fraction.exponent = c.forward (numeralWidth c.rest) := by
    rw [skipWhile_eq, fraction_eq, forward_forward, rest_forward, ← decimalWidth_eq, exponent_eq,
      forward_forward, rest_forward, ← numeralWidth_eq]
  have hcut : cut source c.offset (c.forward (numeralWidth c.rest)).offset =
      .ok (c.rest.take (numeralWidth c.rest)) :=
    cut_forward (h ▸ List.cons_ne_nil _ _) (numeralWidth_le _)
  have htext : utf8 (c.rest.take (numeralWidth c.rest)) =
      .ok (ascii (c.rest.take (numeralWidth c.rest))) :=
    utf8_eq (h ▸ toNat_lt_of_mem_numeral hb)
  obtain ⟨x, hx⟩ : ∃ x, Decimal.read? (ascii (c.rest.take (numeralWidth c.rest))) = some x :=
    h ▸ exists_read? hb
  rw [number, hbehind, bind_of_eq_ok hcut, bind_of_eq_ok htext, numeral, hx]
  dsimp only
  split <;> rfl

theorem stringLiteral_eq (pos : Position) (bytes : List UInt8) : stringLiteral pos bytes =
    match bytes.drop (bytes.takeWhile standsInText).length with
    | [] => .error (.unterminatedQuote pos)
    | b :: _ =>
      if b = 0 then
        .error (.invalidCharacter ((pos.next quote).past (bytes.takeWhile standsInText)) 0)
      else .ok (.text (decode (bytes.takeWhile standsInText)),
        (bytes.takeWhile standsInText).length + 1) := rfl

theorem string_eq (h : c.rest = quote :: bytes) :
    c.string = ((stringLiteral c.position bytes).map
      fun r => (r.1, c.forward (r.2 + 1))).mapError .fault := by
  have hbody : (c.forward 1).rest = bytes := by
    rw [rest_forward, h]
    rfl
  have hstop : c.bump.skipWhile standsInText =
      c.forward ((bytes.takeWhile standsInText).length + 1) := by
    rw [skipWhile_eq, bump_eq_forward h, forward_forward, hbody, Nat.add_comm]
  have hbehind : (c.forward ((bytes.takeWhile standsInText).length + 1)).rest =
      bytes.drop (bytes.takeWhile standsInText).length := by
    rw [rest_forward, h, List.drop_succ_cons]
  unfold string
  dsimp only
  rw [hstop, peek_eq, hbehind, stringLiteral_eq]
  cases hmore : bytes.drop (bytes.takeWhile standsInText).length with
  | nil => rfl
  | cons x more =>
    rw [hmore] at hbehind
    simp only [List.head?_cons]
    split
    · rw [forward, h, List.take_succ_cons, take_length_takeWhile]
      rfl
    · have hne : (c.forward 1).rest ≠ [] := by
        rw [hbody]
        rintro rfl
        cases hmore
      have hle : (bytes.takeWhile standsInText).length ≤ (c.forward 1).rest.length :=
        hbody ▸ (List.takeWhile_prefix _).length_le
      -- the cursor is behind the closing quote, so the offset in front of it exists
      have hlast : before (c.forward ((bytes.takeWhile standsInText).length + 1 + 1)).offset =
          .ok ((c.forward 1).offset + (bytes.takeWhile standsInText).length) := by
        have hoffset : (c.forward ((bytes.takeWhile standsInText).length + 1 + 1)).offset =
            (c.forward 1).offset + (bytes.takeWhile standsInText).length + 1 := by
          simp only [forward]
          omega
        rw [hoffset]
        rfl
      have hcut := cut_forward hne hle
      rw [hbody, take_length_takeWhile] at hcut
      rw [bump_eq_forward hbehind, forward_forward, bump_eq_forward h, bind_of_eq_ok hlast,
        bind_of_eq_ok hcut]
      rfl

/-- A token is cut out as it stands in front of a stream. -/
theorem token_eq (h : c.rest = b :: bytes) :
    c.token b = ((scan c.position b bytes).map
      fun r => (r.1, c.forward (r.2 + 1))).mapError .fault := by
  have hahead : c.peekAt 1 = bytes.head? := by
    rw [peekAt_eq, h, List.getElem?_cons_succ, List.head?_eq_getElem?]
  unfold token scan
  rw [hahead, ← startsNumeral]
  split
  · rename_i hname
    have hpos : 0 < (leadingName c.rest).length := by
      rw [h, leadingName_cons, if_pos (by simp [endsName, hname])]
      exact Nat.succ_pos _
    rw [name_eq h hname, ← h]
    simp only [Except.map, Except.mapError]
    rw [Nat.sub_add_cancel hpos]
  · split
    · rename_i hnumeral
      have hpos : 0 < numeralWidth c.rest := h ▸ numeralWidth_pos hnumeral
      rw [number_eq h hnumeral, ← h]
      dsimp only
      cases numeral c.position (ascii (c.rest.take (numeralWidth c.rest))) with
      | error f => rfl
      | ok t =>
        simp only [Except.map, Except.mapError]
        rw [Nat.sub_add_cancel hpos]
    · split
      · rename_i hquote
        obtain rfl : b = quote := beq_iff_eq.1 hquote
        exact string_eq h
      · cases Mark.ofByte? b with
        | none => rfl
        | some m =>
          simp only
          rw [bump_eq_forward h]
          rfl

theorem stream_forward_succ (h : c.rest = b :: bytes) (n : Nat) : (c.forward (n + 1)).stream =
    .ofBytes ((c.position.next b).past (bytes.take n)) (bytes.drop n) := by
  rw [stream, rest_forward, h, forward, h]
  rfl

/-- The stream by what stands behind the layout. -/
theorem stream_of_nil (h : (c.forward (layoutWidth false c.rest)).rest = []) :
    c.stream = .finish (c.forward (layoutWidth false c.rest)).position := by
  rw [rest_forward] at h
  rw [stream, Stream.ofBytes]
  split
  · rfl
  · rename_i hcons
    rw [h] at hcons
    cases hcons

theorem stream_of_cons (h : (c.forward (layoutWidth false c.rest)).rest = b :: bytes) :
    c.stream = match scan (c.forward (layoutWidth false c.rest)).position b bytes with
      | .error f => .fault f
      | .ok (t, width) => .token t (c.forward (layoutWidth false c.rest)).position
        ((c.forward (layoutWidth false c.rest)).forward (width + 1)).stream := by
  simp only [stream_forward_succ h]
  rw [rest_forward] at h
  rw [stream, Stream.ofBytes]
  split
  · rename_i hnil
    rw [h] at hnil
    cases hnil
  · rename_i hcons
    obtain ⟨rfl, rfl⟩ := List.cons.inj (h.symm.trans hcons)
    rfl

/-- What is met where a stream starts: its first token, or its end, and a cursor with the rest of the
stream behind it, or else its fault. There is no breach. -/
inductive Meets (s : Stream) : Except Halt (Placed × Cursor source) → Prop
  | placed {p : Placed} {behind : Cursor source} (h : s = p.before behind.stream) :
    Meets s (.ok (p, behind))
  | fault {f : Fault} (h : s = .fault f) : Meets s (.error (.fault f))

theorem meets_next (c : Cursor source) : Meets c.stream c.next := by
  have hlayout : c.skipLayout = c.forward (layoutWidth false c.rest) := skipLayout_eq false c
  unfold next
  dsimp only
  rw [hlayout, peek_eq]
  cases hbytes : (c.forward (layoutWidth false c.rest)).rest with
  | nil => exact .placed (stream_of_nil hbytes)
  | cons b bytes =>
    have hstream := stream_of_cons hbytes
    simp only [List.head?_cons]
    rw [token_eq hbytes]
    cases hscan : scan (c.forward (layoutWidth false c.rest)).position b bytes with
    | error f =>
      rw [hscan] at hstream
      exact .fault hstream
    | ok r =>
      rw [hscan] at hstream
      exact .placed hstream

end Cursor

end BeamEnvelope.Glps
