import BeamEnvelope.Proofs.Glps.Lexing

/-!
# Tokens that streams contain

Whatever the bytes of a source are, the tokens formed from them hold names that are identifiers,
finite numbers, and texts without quotes and NULs. A text that is no UTF-8 takes its bytes for code
points, and none of them becomes a quote or a NUL by that.
-/

namespace BeamEnvelope.Glps

open Bytes

variable {b : UInt8} {bytes body : List UInt8} {pos : Position} {t : Token} {width : Nat}

def Token.IsLexical : Token → Prop
  | name s => isIdentifier s = true
  | number x => x.isFinite = true
  | text s => IsQuotable s
  | mark _ => True

theorem isIdentifier_leadingName (h : startsName b = true) :
    isIdentifier (ascii (leadingName (b :: bytes))) = true := by
  have hcolon : (b == colon) = false := by
    rw [beq_eq_false_iff_ne]
    rintro rfl
    exact absurd h (by decide)
  have hhead : (b :: bytes).takeWhile isName = b :: bytes.takeWhile isName := by
    rw [List.takeWhile_cons, if_pos (isName_of_startsName h)]
  have hname : leadingName (b :: bytes) =
      List.rdropWhile (· == colon) (b :: bytes.takeWhile isName) := by
    rw [leadingName, hhead]
    rfl
  have hprefix := List.rdropWhile_prefix (· == colon) (b :: bytes.takeWhile isName)
  -- the first byte is no colon and so is not dropped
  have hne : List.rdropWhile (· == colon) (b :: bytes.takeWhile isName) ≠ [] := by
    rw [ne_eq, List.rdropWhile_eq_nil_iff]
    exact fun hall => absurd (hall b List.mem_cons_self) (by simp [hcolon])
  have hlast : (leadingName (b :: bytes)).getLast? ≠ some colon := by
    rw [hname, List.getLast?_eq_some_getLast hne]
    intro hcolon
    refine List.rdropWhile_last_not (· == colon) _ hne ?_
    rw [Option.some.inj hcolon]
    exact beq_self_eq_true colon
  rw [← hname] at hprefix hne
  obtain ⟨c, rest, hcons⟩ := List.exists_cons_of_ne_nil hne
  rw [hcons] at hprefix hlast
  obtain ⟨rfl, hrest⟩ := List.cons_prefix_cons.1 hprefix
  have hisName : ∀ x ∈ leadingName (c :: bytes), isName x = true := by
    rw [hcons]
    refine List.forall_mem_cons.2 ⟨isName_of_startsName h, fun x hx => ?_⟩
    exact List.mem_takeWhile_imp (hrest.subset hx)
  have hbytes : bytesOf (ascii (leadingName (c :: bytes))) = c :: rest := by
    rw [bytesOf_ascii fun x hx => toNat_lt_of_isName (hisName x hx), hcons]
  refine isIdentifier_iff.2 ⟨c, rest, hbytes, h, fun x hx => hisName x ?_, hlast⟩
  rw [hcons]
  exact List.mem_cons_of_mem _ hx

theorem isQuotable_decode (h : ∀ x ∈ body, x ≠ quote ∧ x ≠ 0) : IsQuotable (decode body) := by
  rw [decode]
  cases hutf8 : String.fromUTF8? ⟨body.toArray⟩ with
  | some s =>
    obtain rfl := fromUTF8?_eq_some.1 hutf8
    exact isQuotable_iff_bytes.2 h
  | none =>
    -- each character has the value of a byte
    have hmem (c : Char) (hc : c ∈ (ascii body).toList) : ∃ x ∈ body, x.toNat = c.toNat := by
      rw [ascii, String.toList_ofList] at hc
      obtain ⟨x, hx, rfl⟩ := List.mem_map.1 hc
      exact ⟨x, hx, (toNat_ofNat_of_byte x).symm⟩
    constructor
    · intro hquote
      obtain ⟨x, hx, hvalue⟩ := hmem _ hquote
      exact (h x hx).1 (UInt8.toNat_inj.1 hvalue)
    · intro hnul
      obtain ⟨x, hx, hvalue⟩ := hmem _ hnul
      exact (h x hx).2 (UInt8.toNat_inj.1 hvalue)

theorem isLexical_of_stringLiteral (h : stringLiteral pos bytes = .ok (t, width)) :
    t.IsLexical := by
  have hbody : ∀ x ∈ bytes.takeWhile (fun b => b != quote && b != 0), x ≠ quote ∧ x ≠ 0 := by
    intro x hx
    simpa using List.mem_takeWhile_imp hx
  unfold stringLiteral at h
  dsimp only at h
  split at h
  · cases h
  · split at h
    · cases h
    · cases h
      exact isQuotable_decode hbody

theorem isLexical_of_numeral {text : String} (h : numeral pos text = .ok t) : t.IsLexical := by
  unfold numeral at h
  split at h
  · cases h
  · split at h
    · rename_i hfinite
      cases h
      exact hfinite
    · cases h

theorem isLexical_of_scan (h : scan pos b bytes = .ok (t, width)) : t.IsLexical := by
  unfold scan at h
  split at h
  · rename_i hname
    cases h
    exact isIdentifier_leadingName hname
  · split at h
    · dsimp only at h
      cases hnumeral : numeral pos (ascii ((b :: bytes).take (numeralWidth (b :: bytes)))) with
      | error f =>
        rw [hnumeral] at h
        cases h
      | ok u =>
        rw [hnumeral] at h
        cases h
        exact isLexical_of_numeral hnumeral
    · split at h
      · exact isLexical_of_stringLiteral h
      · split at h
        · cases h
          trivial
        · cases h

theorem ofBytes_cases (pos : Position) (bytes : List UInt8) :
    (∃ pos', Stream.ofBytes pos bytes = .finish pos') ∨
    (∃ f, Stream.ofBytes pos bytes = .fault f) ∨
    ∃ t here pos' rest, Stream.ofBytes pos bytes = .token t here (.ofBytes pos' rest) ∧
      t.IsLexical := by
  rw [Stream.ofBytes]
  split
  · exact .inl ⟨_, rfl⟩
  · rename_i b rest _
    cases hscan : scan (pos.past (bytes.take (layoutWidth false bytes))) b rest with
    | error f => exact .inr (.inl ⟨f, rfl⟩)
    | ok r => exact .inr (.inr ⟨r.1, _, _, _, rfl, isLexical_of_scan hscan⟩)

/-- All tokens of a stream of bytes are lexical. -/
theorem isLexical_of_begins {ts : List Token} {rest : Stream}
    (h : (Stream.ofBytes pos bytes).Begins ts rest) : ∀ t ∈ ts, t.IsLexical := by
  induction ts generalizing pos bytes with
  | nil => exact fun t ht => absurd ht List.not_mem_nil
  | cons t ts ih =>
    obtain ⟨here, next, hstream, hnext⟩ := Stream.begins_cons.1 h
    rcases ofBytes_cases pos bytes with ⟨_, heq⟩ | ⟨_, heq⟩ | ⟨u, _, pos', more, heq, hu⟩
    · rw [heq] at hstream
      cases hstream
    · rw [heq] at hstream
      cases hstream
    · rw [heq] at hstream
      cases hstream
      exact List.forall_mem_cons.2 ⟨hu, ih hnext⟩

end BeamEnvelope.Glps
