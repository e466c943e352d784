import BeamEnvelope.Proofs.Glps.Tokens

/-!
# Sources that end behind a semicolon

Which token is formed may depend on the bytes behind it, but a semicolon belongs to no other token
than itself and to a text, which ends at its quote. So bytes appended to a source whose last token
is a semicolon change none of its tokens: they only follow behind the last one.
-/

namespace BeamEnvelope.Glps

namespace Stream

/-- The stream with another one in place of its end. -/
def extend : Stream → Stream → Stream
  | token t pos rest, behind => token t pos (rest.extend behind)
  | finish _, behind => behind
  | fault f, _ => fault f

/-- All tokens can be formed, and the last one is a semicolon. -/
def IsClosed (s : Stream) : Prop := ∃ ts, s.tokens? = some (ts ++ [.mark .semicolon])

variable {s rest behind : Stream} {t : Token} {pos : Position} {ts : List Token}

theorem isClosed_token (h : (token t pos s).IsClosed) : s.IsClosed ∨
    t = .mark .semicolon ∧ ∃ pos', s = finish pos' := by
  obtain ⟨ts, hts⟩ := h
  obtain ⟨us, hus, heq⟩ := Option.map_eq_some_iff.1 hts
  cases ts with
  | nil =>
    obtain ⟨rfl, rfl⟩ := List.cons.inj heq
    obtain ⟨pos', hfinish⟩ := tokens?_eq_some.1 hus
    exact .inr ⟨rfl, pos', begins_nil.1 hfinish⟩
  | cons u ts =>
    obtain ⟨-, rfl⟩ := List.cons.inj heq
    exact .inl ⟨ts, hus⟩

theorem IsClosed.exists_token (h : s.IsClosed) : ∃ t pos rest, s = token t pos rest := by
  obtain ⟨ts, hts⟩ := h
  cases s with
  | token t pos rest => exact ⟨t, pos, rest, rfl⟩
  | finish pos => simp [tokens?] at hts
  | fault f => cases hts

theorem IsClosed.isSound (h : s.IsClosed) : s.IsSound := by
  obtain ⟨t, pos, rest, rfl⟩ := h.exists_token
  trivial

theorem IsClosed.isSound_extend (h : s.IsClosed) : (s.extend behind).IsSound := by
  obtain ⟨t, pos, rest, rfl⟩ := h.exists_token
  trivial

theorem IsClosed.head?_extend (h : s.IsClosed) : (s.extend behind).head? = s.head? := by
  obtain ⟨t, pos, rest, rfl⟩ := h.exists_token
  rfl

theorem IsClosed.mark?_extend (h : s.IsClosed) : (s.extend behind).mark? = s.mark? := by
  rw [mark?, mark?, h.head?_extend]

theorem IsClosed.position?_extend (h : s.IsClosed) :
    (s.extend behind).position? = s.position? := by
  obtain ⟨t, pos, rest, rfl⟩ := h.exists_token
  rfl

/-- Behind a name the next token is still in front of the end. -/
theorem IsClosed.second?_extend {n : String} (h : s.IsClosed) (hn : s.head? = some (.name n)) :
    (s.extend behind).second? = s.second? := by
  obtain ⟨t, pos, rest, rfl⟩ := h.exists_token
  obtain rfl := Option.some.inj hn
  rcases isClosed_token h with hrest | ⟨hmark, -⟩
  · exact hrest.head?_extend
  · cases hmark

theorem IsClosed.isFinish_eq_false (h : s.IsClosed) : s.isFinish = false := by
  obtain ⟨t, pos, rest, rfl⟩ := h.exists_token
  rfl

theorem IsClosed.isFinish_extend (h : s.IsClosed) : (s.extend behind).isFinish = false := by
  obtain ⟨t, pos, rest, rfl⟩ := h.exists_token
  rfl

theorem IsClosed.unexpected_extend (h : s.IsClosed) (expected : Expected) :
    (s.extend behind).unexpected expected = s.unexpected expected := by
  obtain ⟨t, pos, rest, rfl⟩ := h.exists_token
  rfl

/-- `rest` is reached over tokens none of which is a semicolon. -/
def Reaches (s rest : Stream) : Prop :=
  ∃ ts, s.Begins ts rest ∧ Token.mark .semicolon ∉ ts

theorem Reaches.refl (s : Stream) : s.Reaches s := ⟨[], .nil s, List.not_mem_nil⟩

theorem Reaches.token (ht : t ≠ .mark .semicolon) (h : s.Reaches rest) :
    (token t pos s).Reaches rest := by
  obtain ⟨ts, hts, hsemicolon⟩ := h
  refine ⟨t :: ts, .cons t pos hts, fun hmem => ?_⟩
  rcases List.mem_cons.1 hmem with rfl | hmem
  · exact ht rfl
  · exact hsemicolon hmem

theorem Reaches.trans {mid : Stream} (h : s.Reaches mid) (h' : mid.Reaches rest) :
    s.Reaches rest := by
  obtain ⟨ts, hts, htsemicolon⟩ := h
  obtain ⟨us, hus, husemicolon⟩ := h'
  exact ⟨ts ++ us, hts.append hus, fun hmem =>
    (List.mem_append.1 hmem).elim htsemicolon husemicolon⟩

theorem Reaches.isClosed (h : s.Reaches rest) (hs : s.IsClosed) : rest.IsClosed := by
  obtain ⟨ts, hts, hsemicolon⟩ := h
  induction hts with
  | nil => exact hs
  | cons t pos _ ih =>
    obtain ⟨ht, hts⟩ := not_or.1 (List.mem_cons.not.1 hsemicolon)
    rcases isClosed_token hs with hs | ⟨rfl, -⟩
    · exact ih hs hts
    · exact absurd rfl ht

end Stream

open Bytes

variable {b : UInt8} {xs ys : List UInt8} {pos : Position} {ts : List Token}

def Bytes.semicolon : UInt8 := 59

theorem layoutWidth_append {o : Bool} (h : layoutWidth o xs < xs.length) :
    layoutWidth o (xs ++ ys) = layoutWidth o xs := by
  induction xs generalizing o with
  | nil => cases h
  | cons b xs ih =>
    cases o with
    | true =>
      rw [layoutWidth, List.length_cons, Nat.succ_lt_succ_iff] at h
      rw [List.cons_append, layoutWidth, layoutWidth, ih h]
    | false =>
      rw [List.cons_append, layoutWidth, layoutWidth]
      rw [layoutWidth] at h
      split
      next hb =>
        rw [if_pos hb, List.length_cons, Nat.succ_lt_succ_iff] at h
        rw [ih h]
      next hb =>
        rw [if_neg hb] at h
        split
        next hc =>
          rw [if_pos hc, List.length_cons, Nat.succ_lt_succ_iff] at h
          rw [ih h]
        next => rfl

section Spans

variable {p : UInt8 → Bool} {x : UInt8} (hx : x ∈ xs) (hp : p x = false)
include hx hp

theorem takeWhile_append_of_mem : (xs ++ ys).takeWhile p = xs.takeWhile p := by
  induction xs with
  | nil => cases hx
  | cons c xs ih =>
    rw [List.cons_append, List.takeWhile_cons, List.takeWhile_cons]
    by_cases hc : p c = true
    · have hne : x ≠ c := fun h => by simp [h, hc] at hp
      rw [ih ((List.mem_cons.1 hx).resolve_left hne)]
    · rw [if_neg hc, if_neg hc]

theorem mem_drop_takeWhile : x ∈ xs.drop (xs.takeWhile p).length := by
  induction xs with
  | nil => cases hx
  | cons c xs ih =>
    rw [List.takeWhile_cons]
    by_cases hc : p c = true
    · have hne : x ≠ c := fun h => by simp [h, hc] at hp
      rw [if_pos hc, List.length_cons, List.drop_succ_cons]
      exact ih ((List.mem_cons.1 hx).resolve_left hne)
    · rw [if_neg hc]
      exact hx

end Spans

theorem le_length_of_mem_drop {x : UInt8} {n : Nat} (h : x ∈ xs.drop n) : n ≤ xs.length := by
  by_contra hlong
  rw [List.drop_of_length_le (by omega)] at h
  cases h

theorem exponentWidth_append (h : semicolon ∈ xs) :
    exponentWidth (xs ++ ys) = exponentWidth xs := by
  obtain ⟨e, rest, rfl⟩ := List.exists_cons_of_ne_nil (List.ne_nil_of_mem h)
  by_cases he : (e != 101 && e != 69) = true
  · simp [exponentWidth, he]
  · have hrest : semicolon ∈ rest := List.mem_of_ne_of_mem (by rintro rfl; exact he (by decide)) h
    obtain ⟨s, more, rfl⟩ := List.exists_cons_of_ne_nil (List.ne_nil_of_mem hrest)
    -- behind a sign, or in its place, the semicolon is still ahead
    have hdigits : semicolon ∈ (s :: more).drop (if s == 43 || s == 45 then 1 else 0) := by
      split
      · rename_i hs
        exact List.mem_of_ne_of_mem (by rintro rfl; exact absurd hs (by decide)) hrest
      · exact hrest
    have hle : (if s == 43 || s == 45 then 1 else 0) ≤ (s :: more).length := by
      split <;> simp
    have hspan : ((s :: more ++ ys).drop (if s == 43 || s == 45 then 1 else 0)).takeWhile isDigit =
        ((s :: more).drop (if s == 43 || s == 45 then 1 else 0)).takeWhile isDigit := by
      rw [List.drop_append_of_le_length hle, takeWhile_append_of_mem hdigits (by decide)]
    rw [List.cons_append] at hspan
    simp only [List.cons_append, exponentWidth, he, hspan]

theorem exponentWidth_le (bytes : List UInt8) : exponentWidth bytes ≤ bytes.length := by
  cases bytes with
  | nil => exact Nat.le_refl _
  | cons e rest =>
    have hspan (n : Nat) (h : ¬ ((rest.drop n).takeWhile isDigit).length = 0) :
        1 + n + ((rest.drop n).takeWhile isDigit).length ≤ rest.length + 1 := by
      have hle := (List.takeWhile_sublist (l := rest.drop n) isDigit).length_le
      rw [List.length_drop] at hle
      omega
    simp only [exponentWidth]
    split_ifs with he hdigits
    · exact Nat.zero_le _
    · exact Nat.zero_le _
    · exact hspan _ hdigits

def decimalWidth (bytes : List UInt8) : Nat :=
  let whole := (bytes.takeWhile isDigit).length
  whole + match bytes.drop whole with
    | b :: rest => if b == dot then 1 + (rest.takeWhile isDigit).length else 0
    | [] => 0

/-- The width of a point with the digits behind it. -/
def fractionWidth : List UInt8 → Nat
  | b :: rest => if b == dot then 1 + (rest.takeWhile isDigit).length else 0
  | [] => 0

theorem decimalWidth_eq (bytes : List UInt8) : decimalWidth bytes =
    (bytes.takeWhile isDigit).length +
      fractionWidth (bytes.drop (bytes.takeWhile isDigit).length) := rfl

theorem fractionWidth_le (bytes : List UInt8) : fractionWidth bytes ≤ bytes.length := by
  cases bytes with
  | nil => exact Nat.le_refl _
  | cons b bytes =>
    have hle := (List.takeWhile_prefix (l := bytes) isDigit).length_le
    simp only [fractionWidth, List.length_cons]
    split <;> omega

theorem decimalWidth_le (bytes : List UInt8) : decimalWidth bytes ≤ bytes.length := by
  have hwhole := (List.takeWhile_prefix (l := bytes) isDigit).length_le
  have hfraction := fractionWidth_le (bytes.drop (bytes.takeWhile isDigit).length)
  rw [List.length_drop] at hfraction
  rw [decimalWidth_eq]
  omega

theorem numeralWidth_eq (bytes : List UInt8) : numeralWidth bytes =
    decimalWidth bytes + exponentWidth (bytes.drop (decimalWidth bytes)) := rfl

theorem numeralWidth_le (bytes : List UInt8) : numeralWidth bytes ≤ bytes.length := by
  have hdecimal := decimalWidth_le bytes
  have hexponent := exponentWidth_le (bytes.drop (decimalWidth bytes))
  rw [List.length_drop] at hexponent
  rw [numeralWidth_eq]
  omega

/-- The semicolon is behind the digits, wherever the source goes on. -/
theorem decimalWidth_append (h : semicolon ∈ xs) (ys : List UInt8) :
    decimalWidth (xs ++ ys) = decimalWidth xs ∧ semicolon ∈ xs.drop (decimalWidth xs) := by
  have hwhole := mem_drop_takeWhile (p := isDigit) h (by decide)
  have hle : (xs.takeWhile isDigit).length ≤ xs.length :=
    (List.takeWhile_sublist (l := xs) isDigit).length_le
  rw [decimalWidth, decimalWidth, takeWhile_append_of_mem h (by decide),
    List.drop_append_of_le_length hle]
  obtain ⟨c, rest, hdrop⟩ := List.exists_cons_of_ne_nil (List.ne_nil_of_mem hwhole)
  rw [← List.drop_drop, hdrop, List.cons_append]
  rw [hdrop] at hwhole
  dsimp only
  split
  · rename_i hc
    have hrest : semicolon ∈ rest :=
      List.mem_of_ne_of_mem (by rintro rfl; exact absurd hc (by decide)) hwhole
    rw [takeWhile_append_of_mem hrest (by decide), Nat.add_comm 1, List.drop_succ_cons]
    exact ⟨rfl, mem_drop_takeWhile hrest (by decide)⟩
  · exact ⟨rfl, hwhole⟩

theorem numeralWidth_append (h : semicolon ∈ xs) : numeralWidth (xs ++ ys) = numeralWidth xs := by
  obtain ⟨hwidth, hmem⟩ := decimalWidth_append h ys
  rw [numeralWidth_eq, numeralWidth_eq, hwidth,
    List.drop_append_of_le_length (le_length_of_mem_drop hmem), exponentWidth_append hmem]

theorem drop_length_takeWhile (p : UInt8 → Bool) (bytes : List UInt8) :
    bytes.drop (bytes.takeWhile p).length = bytes.dropWhile p := by
  calc bytes.drop (bytes.takeWhile p).length
      = (bytes.takeWhile p ++ bytes.dropWhile p).drop (bytes.takeWhile p).length := by
        rw [List.takeWhile_append_dropWhile]
    _ = bytes.dropWhile p := List.drop_left

theorem stringLiteral_append {r : Token × Nat} (h : stringLiteral pos xs = .ok r) :
    stringLiteral pos (xs ++ ys) = .ok r := by
  rw [stringLiteral] at h ⊢
  split at h
  · cases h
  · rename_i c rest hcut
    have hstop : (c != quote && c != 0) = false := by
      have hhead := List.head?_dropWhile_not (fun b => b != quote && b != 0) xs
      rw [← drop_length_takeWhile, hcut] at hhead
      simpa using hhead
    have hmem : c ∈ xs := List.mem_of_mem_drop (hcut ▸ List.mem_cons_self)
    have hle := (List.takeWhile_sublist (l := xs) fun b => b != quote && b != 0).length_le
    rw [takeWhile_append_of_mem hmem hstop, List.drop_append_of_le_length hle, hcut,
      List.cons_append]
    exact h

/-- A token in front of a semicolon, or the semicolon itself, does not depend on appended bytes. -/
theorem scan_append {r : Token × Nat} (h : scan pos b xs = .ok r) (hmem : semicolon ∈ b :: xs) :
    scan pos b (xs ++ ys) = .ok r := by
  by_cases hb : semicolon = b
  · subst hb
    exact h
  · have hxs := List.mem_of_ne_of_mem hb hmem
    -- neither a name nor a numeral goes on past a semicolon
    have hname : leadingName (b :: xs ++ ys) = leadingName (b :: xs) := by
      rw [leadingName, leadingName, takeWhile_append_of_mem hmem (by decide)]
    have hnumeral : startsNumeral b (xs ++ ys) = startsNumeral b xs := by
      obtain ⟨c, rest, rfl⟩ := List.exists_cons_of_ne_nil (List.ne_nil_of_mem hxs)
      rfl
    have hwidth : numeralWidth (b :: xs ++ ys) = numeralWidth (b :: xs) :=
      numeralWidth_append hmem
    have htext : (b :: xs ++ ys).take (numeralWidth (b :: xs)) =
        (b :: xs).take (numeralWidth (b :: xs)) :=
      List.take_append_of_le_length (numeralWidth_le _)
    rw [List.cons_append] at hname hwidth htext
    rw [scan] at h ⊢
    simp only [hname, hnumeral, hwidth, htext]
    split
    · rename_i hstart
      rwa [if_pos hstart] at h
    · rename_i hstart
      rw [if_neg hstart] at h
      split
      · rename_i hdigit
        rwa [if_pos hdigit] at h
      · rename_i hdigit
        rw [if_neg hdigit] at h
        split
        · rename_i hquote
          rw [if_pos hquote] at h
          exact stringLiteral_append h
        · rename_i hquote
          rwa [if_neg hquote] at h

/-- Only the byte of the semicolon is read as one, and no other byte belongs to it. -/
theorem eq_semicolon_of_scan {width : Nat}
    (h : scan pos b xs = .ok (.mark .semicolon, width)) : b = semicolon ∧ width = 0 := by
  rw [scan] at h
  split at h
  · cases h
  · split at h
    · obtain ⟨t, ht, hpair⟩ := map_eq_ok.1 h
      obtain ⟨rfl, -⟩ := Prod.mk.inj hpair
      rw [numeral] at ht
      split at ht
      · cases ht
      · split at ht <;> cases ht
    · split at h
      · rw [stringLiteral] at h
        split at h
        · cases h
        · split at h <;> cases h
      · split at h
        · rename_i m hm
          cases h
          have hchar := List.find?_some hm
          exact ⟨UInt8.toNat_inj.1 (beq_iff_eq.1 hchar).symm, rfl⟩
        · cases h

/-- A stream with a token in front, by the bytes in front of the token and behind it. -/
theorem exists_of_ofBytes_eq_token {t : Token} {here : Position} {s : Stream}
    (h : Stream.ofBytes pos xs = .token t here s) : ∃ b rest width,
    xs.drop (layoutWidth false xs) = b :: rest ∧
    here = pos.past (xs.take (layoutWidth false xs)) ∧ scan here b rest = .ok (t, width) ∧
    s = .ofBytes ((here.next b).past (rest.take width)) (rest.drop width) := by
  rw [Stream.ofBytes] at h
  split at h
  · cases h
  · rename_i b rest hdrop
    split at h
    · cases h
    · rename_i t' width hscan
      cases h
      exact ⟨b, rest, width, hdrop, rfl, hscan, rfl⟩

theorem ofBytes_eq_token (pos : Position) {t : Token} {rest : List UInt8} {width : Nat}
    (hdrop : xs.drop (layoutWidth false xs) = b :: rest)
    (hscan : scan (pos.past (xs.take (layoutWidth false xs))) b rest = .ok (t, width)) :
    Stream.ofBytes pos xs = .token t (pos.past (xs.take (layoutWidth false xs)))
      (.ofBytes (((pos.past (xs.take (layoutWidth false xs))).next b).past (rest.take width))
        (rest.drop width)) := by
  rw [Stream.ofBytes]
  split
  · rename_i hnil
    rw [hdrop] at hnil
    cases hnil
  · rename_i hcons
    obtain ⟨rfl, rfl⟩ := List.cons.inj (hdrop.symm.trans hcons)
    rw [hscan]

theorem semicolon_mem_of_isClosed (h : (Stream.ofBytes pos xs).IsClosed) :
    semicolon ∈ xs.drop (layoutWidth false xs) := by
  induction hn : xs.length using Nat.strongRecOn generalizing pos xs with
  | ind n ih =>
    obtain ⟨t, here, s, htoken⟩ := h.exists_token
    obtain ⟨b, rest, width, hdrop, -, hscan, rfl⟩ := exists_of_ofBytes_eq_token htoken
    rw [hdrop]
    rw [htoken] at h
    rcases Stream.isClosed_token h with hs | ⟨rfl, -⟩
    · have hshort := length_lt_of_drop_eq_cons hdrop
      have hlen : (rest.drop width).length < n := by
        rw [List.length_drop]
        omega
      exact List.mem_cons_of_mem _ (List.mem_of_mem_drop (List.mem_of_mem_drop (ih _ hlen hs rfl)))
    · exact (eq_semicolon_of_scan hscan).1 ▸ List.mem_cons_self

/-- What is appended behind the last semicolon is read from there on. -/
theorem ofBytes_append (h : (Stream.ofBytes pos xs).IsClosed) (ys : List UInt8) :
    ∃ behind, Stream.ofBytes pos (xs ++ ys) = (Stream.ofBytes pos xs).extend behind := by
  induction hn : xs.length using Nat.strongRecOn generalizing pos xs with
  | ind n ih =>
    obtain ⟨t, here, s, htoken⟩ := h.exists_token
    obtain ⟨b, rest, width, hdrop, rfl, hscan, rfl⟩ := exists_of_ofBytes_eq_token htoken
    have hmem := semicolon_mem_of_isClosed h
    rw [hdrop] at hmem
    have hlen := congrArg List.length hdrop
    rw [List.length_drop, List.length_cons] at hlen
    have hlayout : layoutWidth false (xs ++ ys) = layoutWidth false xs :=
      layoutWidth_append (by omega)
    -- the token in front is the same one, at the same place
    have hdrop' : (xs ++ ys).drop (layoutWidth false (xs ++ ys)) = b :: (rest ++ ys) := by
      rw [hlayout, List.drop_append_of_le_length (by omega), hdrop, List.cons_append]
    have htake : (xs ++ ys).take (layoutWidth false (xs ++ ys)) =
        xs.take (layoutWidth false xs) := by
      rw [hlayout, List.take_append_of_le_length (by omega)]
    have hstream := ofBytes_eq_token pos hdrop' (htake ▸ scan_append hscan hmem)
    rw [htake] at hstream
    rw [hstream, htoken]
    rw [htoken] at h
    rcases Stream.isClosed_token h with hs | ⟨rfl, pos', hfinish⟩
    · have hrest := semicolon_mem_of_isClosed hs
      have hwidth := le_length_of_mem_drop (List.mem_of_mem_drop hrest)
      rw [List.take_append_of_le_length hwidth, List.drop_append_of_le_length hwidth]
      have hshort : (rest.drop width).length < n := by
        rw [List.length_drop]
        omega
      obtain ⟨behind, hbehind⟩ := ih _ hshort hs rfl
      exact ⟨behind, by rw [hbehind, Stream.extend]⟩
    · rw [(eq_semicolon_of_scan hscan).2] at hfinish ⊢
      rw [hfinish]
      exact ⟨_, rfl⟩

end BeamEnvelope.Glps
